import Atproto.Identity.Endpoint
import Atproto.Identity.Key
import Atproto.Logic.Backoff
import Atproto.Logic.Machine
import Mathlib.Data.List.Sort

/-!
# The queue of notifications

A write to a space is announced to the services that have registered for it.  Each announcement is a
row of a queue, with the token that it is sent with.  A row that is due is sent, and a row whose
delivery fails is tried again later.  Times are nanoseconds since the epoch.  The database keeps them
as texts with years of four digits, which are ordered as the times are.
-/

namespace Atproto.Pds.Notify

open Atproto.Dasl Atproto.Identity Atproto.Repo Logic Logic.Machine

def nanosPerMilli : Int := 1000000

def nanosPerSec : Int := 1000000000

/-- The start of the year 10000. -/
def yearTenThousand : Int := 253402300800 * nanosPerSec

/-- A reading of the clock. -/
structure Reading where
  nanos : Int
  inRange : 0 ≤ nanos ∧ nanos < yearTenThousand

/-- Whole seconds since the epoch. -/
def Reading.secs (reading : Reading) : Nat := (reading.nanos / nanosPerSec).toNat

/-! ### Tokens -/

/-- The header of a service-auth token. -/
structure ServiceAuthHeader where
  alg : String
  typ : String
  kid : Option String

/-- The claims of a service-auth token. -/
structure ServiceAuthClaims where
  iss : String
  aud : String
  lxm : Option String
  iat : Nat
  exp : Nat
  jti : String

/-- A signed service-auth token. -/
structure ServiceAuth where
  header : ServiceAuthHeader
  claims : ServiceAuthClaims
  signature : Bytes

def typServiceAuth : String := "JWT"

def serviceAuthKid : String := "#atproto"

def notifyServiceAuthTtlSecs : Nat := 60

/-- Errors of the queue. -/
inductive PdsError where
  | storage (reason : String)
deriving DecidableEq

/-- The library of signatures, which signs a header and claims. -/
def SignLibrary : Type := KeyData → ServiceAuthHeader → ServiceAuthClaims → Except String Bytes

def jwsAlg (key : KeyData) : String :=
  match key.keyType with
  | .p256Private | .p256Public => "ES256"
  | .p384Private | .p384Public => "ES384"
  | .k256Private | .k256Public => "ES256K"
  | .ed25519Private | .ed25519Public => "EdDSA"

/-- What the server draws for a row: the readings of the clock and the random texts. -/
structure Draw where
  mintedAt : Reading
  jti : String
  namedAt : Reading
  suffix : String
  queuedAt : Reading

/-- The claims of a token that is minted. -/
def mintedClaims (iss aud lxm : String) (ttlSecs : Nat) (draw : Draw) : ServiceAuthClaims :=
  { iss, aud, lxm := some lxm, iat := draw.mintedAt.secs, exp := draw.mintedAt.secs + ttlSecs,
    jti := draw.jti }

def mintServiceAuth (sign : SignLibrary) (key : KeyData) (iss aud lxm : String) (ttlSecs : Nat)
    (draw : Draw) : Except PdsError ServiceAuth :=
  let header : ServiceAuthHeader :=
    { alg := jwsAlg key, typ := typServiceAuth, kid := some serviceAuthKid }
  let claims := mintedClaims iss aud lxm ttlSecs draw
  match sign key header claims with
  | .ok signature => .ok { header, claims, signature }
  | .error reason => .error (.storage s!"error-atproto-xrpcs-service-auth-14 Service-auth token could not be minted: {reason}")

/-! ### The queue -/

inductive AttemptState where
  | pending
  | delivered
  | failed
deriving DecidableEq

/-- A row of the queue. -/
structure Attempt where
  id : String
  targetServiceDid : String
  targetEndpoint : String
  payload : Bytes
  nsid : String
  contentType : String
  authToken : Option ServiceAuth
  attemptCount : Nat
  nextAttemptAt : Int
  state : AttemptState
  lastAttemptAt : Option Int
  lastError : Option String

/-- The name of a row. -/
def Draw.rowId (draw : Draw) : String :=
  s!"n-{draw.namedAt.nanos / nanosPerMilli}-{draw.suffix}"

/-- A row that has not been sent. -/
def newAttempt (targetServiceDid targetEndpoint : String) (payload : Bytes)
    (nsid contentType : String) (authToken : Option ServiceAuth) (draw : Draw) : Attempt :=
  { id := draw.rowId
    targetServiceDid
    targetEndpoint
    payload
    nsid
    contentType
    authToken
    attemptCount := 0
    nextAttemptAt := draw.queuedAt.nanos
    state := .pending
    lastAttemptAt := none
    lastError := none }

def enqueueNotification (targetServiceDid targetEndpoint : String) (payload : Bytes)
    (nsid contentType : String) (authToken : Option ServiceAuth) (draw : Draw)
    (attempts : List Attempt) : Except PdsError (List Attempt) :=
  if attempts.any (fun row => row.id = draw.rowId) then
    .error (.storage "enqueue_notification: error returned from database: (code: 1555) UNIQUE constraint failed: notify_attempt.id")
  else
    .ok (attempts ++
      [newAttempt targetServiceDid targetEndpoint payload nsid contentType authToken draw])

/-- What the database does to the row with a name. -/
def updateRow (id : String) (f : Attempt → Attempt) (attempts : List Attempt) : List Attempt :=
  attempts.map fun row => if row.id = id then f row else row

/-- The rows that are due, the earliest first.  The database compares their times as texts, which
have the order of the times up to the year 9999. -/
def dueNow (now : Reading) (limit : Nat) (attempts : List Attempt) : List Attempt :=
  ((attempts.filter fun row => row.state = .pending ∧ row.nextAttemptAt ≤ now.nanos).insertionSort
    fun a b => a.nextAttemptAt ≤ b.nextAttemptAt).take (max 1 (min limit 1000))

/-- A row that is delivered. -/
def Attempt.asDelivered (now : Reading) (row : Attempt) : Attempt :=
  { row with
    state := .delivered
    lastAttemptAt := some now.nanos
    attemptCount := row.attemptCount + 1 }

/-- A row that is given up. -/
def Attempt.asFailed (now : Reading) (error : String) (count : Nat) (row : Attempt) : Attempt :=
  { row with
    state := .failed
    lastAttemptAt := some now.nanos
    lastError := some error
    attemptCount := count }

/-- A row that is tried again. -/
def Attempt.asRetried (now : Reading) (error : String) (count : Nat) (nextAt : Int)
    (row : Attempt) : Attempt :=
  { row with
    state := .pending
    lastAttemptAt := some now.nanos
    lastError := some error
    attemptCount := count
    nextAttemptAt := nextAt }

def markDelivered (now : Reading) (id : String) (attempts : List Attempt) : List Attempt :=
  updateRow id (Attempt.asDelivered now) attempts

/-- Why the server panics. -/
inductive Panic where
  | attemptCount
  | duration
  | dateTime
deriving DecidableEq

/-- The numbers of 64 bits, read with a sign. -/
def asI64 (n : Nat) : Int := if n < 2 ^ 63 then n else n - 2 ^ 64

/-- The first and the last time of the library of times. -/
def minUtc : Int := -8334601228800 * nanosPerSec

def maxUtc : Int := 8210266876799 * nanosPerSec + 999999999

/-- A time with milliseconds added. -/
def addMilliseconds (time ms : Int) : Except Panic Int :=
  if ms < -(2 ^ 63 - 1) then .error .duration
  else if minUtc ≤ time + ms * nanosPerMilli ∧ time + ms * nanosPerMilli ≤ maxUtc then
    .ok (time + ms * nanosPerMilli)
  else .error .dateTime

/-- One more attempt, counted with 32 bits. -/
def nextCount (count : Nat) : Except Panic Nat :=
  if count % 2 ^ 32 + 1 < 2 ^ 32 then .ok (count % 2 ^ 32 + 1) else .error .attemptCount

/-- The settings of the worker. -/
structure Notifier where
  initialBackoffMs : UInt64
  maxAttempts : UInt32
  batchSize : UInt32

def defaultInitialBackoffMs : UInt64 := 1000

def defaultMaxAttempts : UInt32 := 8

/-- The settings that a server has when nobody sets them. -/
def defaultNotifier : Notifier :=
  { initialBackoffMs := defaultInitialBackoffMs, maxAttempts := defaultMaxAttempts,
    batchSize := 50 }

/-- The wait in milliseconds, as the machine computes it. -/
def Notifier.backoffMs (notifier : Notifier) (count : Nat) : Nat :=
  Backoff.saturatedWait (2 ^ 64 - 1) notifier.initialBackoffMs.toNat count

/-- The queue after a failure, and when the row is tried again. -/
def recordFailure (notifier : Notifier) (now : Reading) (id error : String)
    (attempts : List Attempt) : Except Panic (List Attempt × AttemptState) := do
  let count ← match attempts.find? fun row => row.id = id with
    | some row => nextCount row.attemptCount
    | none => .ok 1
  if notifier.maxAttempts.toNat ≤ count then
    .ok (updateRow id (Attempt.asFailed now error count) attempts, .failed)
  else
    let nextAt ← addMilliseconds now.nanos (asI64 (notifier.backoffMs count))
    .ok (updateRow id (Attempt.asRetried now error count nextAt) attempts, .pending)

/-! ### Registrations -/

/-- A registration of a service for a space, or for one repo of it. -/
structure Registration where
  serviceDid : String
  serviceEndpoint : String
  repo : String
  expiresAt : Option Int
deriving DecidableEq

/-- A registration that has not expired and that a write concerns. -/
def Registration.isRecipient (now : Reading) (writerRepo : Option String)
    (registration : Registration) : Bool :=
  (match registration.expiresAt with
    | some expiresAt => now.nanos < expiresAt
    | none => true) &&
  (registration.repo.isEmpty || writerRepo = some registration.repo)

def listRecipients (now : Reading) (writerRepo : Option String) (rows : List Registration) :
    List Registration :=
  rows.filter (Registration.isRecipient now writerRepo)

/-- What is told of a write. -/
structure NotifyWritePayload where
  space : String
  repo : String
  rev : String
  hash : Option Bytes

/-- What the server uses from outside. -/
structure Libraries where
  url : UrlLibrary
  sign : SignLibrary
  encodePayload : NotifyWritePayload → Except String Bytes

/-- What the server reads and draws for an announcement. -/
structure Readings where
  readAt : Reading
  registrations : List Registration
  draws : Nat → Draw

/-- An announcement of a space. -/
structure Announcement where
  spaceDid : String
  writerRepo : Option String
  nsid : String
  contentType : String
  body : Bytes
  key : KeyData
  readings : Readings

/-- Queue a row for each recipient.  The rows before a failure stay. -/
def enqueueRecipients (libraries : Libraries) (announcement : Announcement) (count : Nat) :
    List Registration → List Attempt → List Attempt × Except PdsError Nat
  | [], attempts => (attempts, .ok count)
  | recipient :: recipients, attempts =>
    match validateServiceEndpoint libraries.url recipient.serviceEndpoint with
    | .error _ => enqueueRecipients libraries announcement count recipients attempts
    | .ok _ =>
      match mintServiceAuth libraries.sign announcement.key announcement.spaceDid
          recipient.serviceDid announcement.nsid notifyServiceAuthTtlSecs
          (announcement.readings.draws count) with
      | .error error => (attempts, .error error)
      | .ok token =>
        match enqueueNotification recipient.serviceDid recipient.serviceEndpoint
            announcement.body announcement.nsid announcement.contentType (some token)
            (announcement.readings.draws count) attempts with
        | .error error => (attempts, .error error)
        | .ok attempts => enqueueRecipients libraries announcement (count + 1) recipients attempts

def enqueueForSpace (libraries : Libraries) (announcement : Announcement)
    (attempts : List Attempt) : List Attempt × Except PdsError Nat :=
  enqueueRecipients libraries announcement 0
    (listRecipients announcement.readings.readAt announcement.writerRepo
      announcement.readings.registrations) attempts

def notifyWriteNsid : String := "com.atproto.space.notifyWrite"

/-- A write to a space, with what the server reads and draws for it. -/
structure Write where
  spaceDid : String
  payload : NotifyWritePayload
  key : KeyData
  readings : Readings

/-- The announcement of a write. -/
def Write.announcement (write : Write) (body : Bytes) : Announcement :=
  { spaceDid := write.spaceDid
    writerRepo := some write.payload.repo
    nsid := notifyWriteNsid
    contentType := "application/json"
    body
    key := write.key
    readings := write.readings }

def enqueueWrites (libraries : Libraries) (write : Write) (attempts : List Attempt) :
    List Attempt × Except PdsError Nat :=
  match libraries.encodePayload write.payload with
  | .error error => (attempts, .error (.storage s!"encode notifyWrite payload: {error}"))
  | .ok body => enqueueForSpace libraries (write.announcement body) attempts

/-! ### The worker -/

/-- What a service answers, and when that is recorded. -/
inductive Answer where
  | success (at_ : Reading)
  | refused (status : String) (at_ : Reading)
  | unreachable (error : String) (at_ : Reading)

/-- When a request is sent, and its answer. -/
structure Reply where
  sentAt : Reading
  answer : Answer

/-- A request that has been sent: its row, when it was sent, and the wait of the row when it is tried
again. -/
structure Sent where
  row : Attempt
  sentAt : Reading
  waits : Option Int

/-- The wait from a failure until the row with a name is due again. -/
def waitOf (recordedAt : Reading) (id : String) (attempts : List Attempt) : Option Int :=
  (attempts.find? fun row => row.id = id).bind fun row =>
    if row.state = .pending then some (row.nextAttemptAt - recordedAt.nanos) else none

/-- The queue, and all that has been sent. -/
structure World where
  attempts : List Attempt
  sent : List Sent
  panicked : Bool

/-- A row has been sent and its delivery has failed. -/
def deliveryFailed (notifier : Notifier) (sentAt recordedAt : Reading) (error : String)
    (row : Attempt) (world : World) : Except Panic World :=
  match recordFailure notifier recordedAt row.id error world.attempts with
  | .error panicked => .error panicked
  | .ok (attempts, _) =>
    .ok { world with
      attempts
      sent := world.sent ++ [⟨row, sentAt, waitOf recordedAt row.id attempts⟩] }

/-- Send a row. -/
def deliver (notifier : Notifier) (reply : Reply) (row : Attempt) (world : World) :
    Except Panic World :=
  match reply.answer with
  | .success recordedAt =>
    .ok { world with
      attempts := markDelivered recordedAt row.id world.attempts
      sent := world.sent ++ [⟨row, reply.sentAt, none⟩] }
  | .refused status recordedAt =>
    deliveryFailed notifier reply.sentAt recordedAt s!"HTTP {status}" row world
  | .unreachable error recordedAt =>
    deliveryFailed notifier reply.sentAt recordedAt s!"transport: {error}" row world

/-- Send all rows that are due. -/
def tick (notifier : Notifier) (now : Reading) (replies : String → Reply) (world : World) :
    Except Panic World :=
  (dueNow now notifier.batchSize.toNat world.attempts).foldlM
    (fun world row => deliver notifier (replies row.id) row world) world

/-- What happens to the queue. -/
inductive Event where
  | write (write : Write)
  | tick (now : Reading) (replies : String → Reply)

/-- The queue after an event. -/
def step (libraries : Libraries) (notifier : Notifier) (world : World) : Event → World
  | .write write => { world with attempts := (enqueueWrites libraries write world.attempts).1 }
  | .tick now replies =>
    match tick notifier now replies world with
    | .ok world => world
    | .error _ => { world with panicked := true }

/-- The queue at first. -/
def start : World := { attempts := [], sent := [], panicked := false }

/-! ### What is promised -/

/-- The requests for a row. -/
def World.sentFor (world : World) (id : String) : List Sent :=
  world.sent.filter fun sent => sent.row.id = id

/-- A request carries a token that has not expired when it is sent. -/
def Sent.IsFresh (sent : Sent) : Prop :=
  ∃ token, sent.row.authToken = some token ∧ sent.sentAt.secs < token.claims.exp

/-- No row has been sent too often or with a token that has expired, and the waits of a row have not
decreased. -/
def World.Deliverable (notifier : Notifier) (world : World) : Prop :=
  world.panicked = false ∧ ∀ id,
    (world.sentFor id).length ≤ notifier.maxAttempts.toNat ∧
    (∀ sent ∈ world.sentFor id, sent.IsFresh) ∧
    ((world.sentFor id).filterMap Sent.waits).Pairwise (· ≤ ·)

/-- The live registrations that a write concerns. -/
def Write.recipients (write : Write) : List Registration :=
  listRecipients write.readings.readAt (some write.payload.repo) write.readings.registrations

/-- A write has queued one delivery for each service with a live registration that it concerns. -/
def QueuesOnce (before after : World) : Event → Prop
  | .tick _ _ => True
  | .write write => ∀ service, (∃ recipient ∈ write.recipients, recipient.serviceDid = service) →
      (after.attempts.drop before.attempts.length).countP
        (fun row => row.targetServiceDid = service) = 1

/-- Each row that is due is sent when it falls due. -/
def Prompt (notifier : Notifier) (world : World) : Event → Prop
  | .write _ => True
  | .tick now replies => ∀ row ∈ dueNow now notifier.batchSize.toNat world.attempts,
      (replies row.id).sentAt.nanos = row.nextAttemptAt

/-! ### When it is kept -/

/-- When a failure is recorded. -/
def Answer.failedAt : Answer → Option Reading
  | .success _ => none
  | .refused _ recordedAt => some recordedAt
  | .unreachable _ recordedAt => some recordedAt

/-- The wait after a number of failures, from a time on, ends before the token expires. -/
def Notifier.FitsFrom (notifier : Notifier) (failures : Nat) (time : Int) (exp : Nat) : Prop :=
  time + Backoff.wait notifier.initialBackoffMs.toNat failures * nanosPerMilli < exp * nanosPerSec

/-- A write can be announced: each service has one live registration that the write concerns, with an
endpoint that is accepted, tokens are signed, rows get names of their own, and a row is queued before
its token expires. -/
structure Write.Fits (libraries : Libraries) (notifier : Notifier) (write : Write)
    (attempts : List Attempt) : Prop where
  encodes : ∃ body, libraries.encodePayload write.payload = .ok body
  signs : ∀ header claims, ∃ signature, libraries.sign write.key header claims = .ok signature
  services : (write.recipients.map Registration.serviceDid).Nodup
  endpoints : ∀ recipient ∈ write.recipients,
    validateServiceEndpoint libraries.url recipient.serviceEndpoint = .ok ()
  names : (attempts.map Attempt.id ++ (List.range' 0 write.recipients.length).map
    fun i => (write.readings.draws i).rowId).Nodup
  inTime : ∀ i < write.recipients.length, 0 < notifier.maxAttempts.toNat ∧
    (write.readings.draws i).queuedAt.nanos <
      (((write.readings.draws i).mintedAt.secs + notifyServiceAuthTtlSecs : Nat) : Int) * nanosPerSec

/-- The wait of a row that is tried again ends before its token expires. -/
def Reply.Fits (notifier : Notifier) (reply : Reply) (row : Attempt) : Prop :=
  ∀ recordedAt ∈ reply.answer.failedAt, ∀ token ∈ row.authToken,
    row.attemptCount + 1 < notifier.maxAttempts.toNat →
    notifier.FitsFrom (row.attemptCount + 1) recordedAt.nanos token.claims.exp

/-- The condition on an event. -/
def Fits (libraries : Libraries) (notifier : Notifier) (world : World) : Event → Prop
  | .write write => write.Fits libraries notifier world.attempts
  | .tick now replies => ∀ row ∈ dueNow now notifier.batchSize.toNat world.attempts,
      (replies row.id).Fits notifier row

/-- What is known of a row and of the requests for it. -/
structure Attempt.Ok (notifier : Notifier) (sent : List Sent) (row : Attempt) : Prop where
  length_sent : sent.length = row.attemptCount
  count_le : row.attemptCount ≤ notifier.maxAttempts.toNat
  fresh : ∀ request ∈ sent, request.IsFresh
  sorted : (sent.filterMap Sent.waits).Pairwise (· ≤ ·)
  waits_le : ∀ wait ∈ sent.filterMap Sent.waits,
    wait ≤ Backoff.wait notifier.initialBackoffMs.toNat row.attemptCount * nanosPerMilli
  inTime : row.state = .pending → row.attemptCount < notifier.maxAttempts.toNat ∧
    ∃ token, row.authToken = some token ∧
      token.claims.exp * nanosPerSec ≤ yearTenThousand + notifyServiceAuthTtlSecs * nanosPerSec ∧
      row.nextAttemptAt < token.claims.exp * nanosPerSec

/-- What is known of the queue. -/
structure World.Ok (notifier : Notifier) (world : World) : Prop where
  running : world.panicked = false
  names : (world.attempts.map Attempt.id).Nodup
  rows : ∀ row ∈ world.attempts, row.Ok notifier (world.sentFor row.id)
  known : ∀ sent ∈ world.sent, ∃ row ∈ world.attempts, row.id = sent.row.id

variable {libraries : Libraries} {notifier : Notifier} {world : World} {row : Attempt}
  {attempts : List Attempt}

theorem World.Ok.deliverable (h : world.Ok notifier) :
  world.Deliverable notifier
  := by
  constructor
  · exact h.running
  intro id
  by_cases hid : ∃ row ∈ world.attempts, row.id = id
  · obtain ⟨row, hrow, rfl⟩ := hid
    have hok := h.rows row hrow
    constructor
    · rw [hok.length_sent]
      apply hok.count_le
    · exact ⟨hok.fresh, hok.sorted⟩
  · have hnone : world.sentFor id = [] := by
      apply List.filter_eq_nil_iff.mpr
      intro sent hsent heq
      obtain ⟨row, hrow, hname⟩ := h.known sent hsent
      exact hid ⟨row, hrow, hname.trans (of_decide_eq_true heq)⟩
    rw [hnone]
    constructor
    · apply Nat.zero_le
    · exact ⟨fun sent hsent => absurd hsent List.not_mem_nil, List.Pairwise.nil⟩

/-! ### One row -/

section

variable (now : Reading) (error : String) (count : Nat) (nextAt : Int) (row : Attempt)

theorem Attempt.id_asDelivered :
  (row.asDelivered now).id = row.id
  := rfl

theorem Attempt.id_asFailed :
  (row.asFailed now error count).id = row.id
  := rfl

theorem Attempt.id_asRetried :
  (row.asRetried now error count nextAt).id = row.id
  := rfl

end

theorem map_id_updateRow {id : String} {f : Attempt → Attempt} (hf : ∀ row, (f row).id = row.id) :
  (updateRow id f attempts).map Attempt.id = attempts.map Attempt.id
  := by
  rw [updateRow, List.map_map]
  apply List.map_congr_left
  intro row _
  rw [Function.comp_apply]
  split_ifs
  · apply hf
  · rfl

/-- Rows have different names. -/
theorem eq_of_id_eq (hnames : (attempts.map Attempt.id).Nodup) {row other : Attempt}
    (hrow : row ∈ attempts) (hother : other ∈ attempts) (h : other.id = row.id) :
  other = row
  := List.inj_on_of_nodup_map hnames hother hrow h

/-- A row is found by its name. -/
theorem find_eq (hnames : (attempts.map Attempt.id).Nodup) (hrow : row ∈ attempts) :
  attempts.find? (fun other => other.id = row.id) = some row
  := by
  have hsome : (attempts.find? fun other => other.id = row.id).isSome := by
    rw [List.find?_isSome]
    exact ⟨row, hrow, decide_eq_true rfl⟩
  obtain ⟨other, hother⟩ := Option.isSome_iff_exists.mp hsome
  have hname := List.find?_some hother
  rw [decide_eq_true_eq] at hname
  rw [hother, eq_of_id_eq hnames hrow (List.mem_of_find?_eq_some hother) hname]

theorem mem_updateRow {f : Attempt → Attempt} (hrow : row ∈ attempts) :
  f row ∈ updateRow row.id f attempts
  := List.mem_map.mpr ⟨row, hrow, if_pos rfl⟩

/-- The other rows stay as they are. -/
theorem mem_updateRow_of_ne {f : Attempt → Attempt} {id : String} {other : Attempt}
    (hother : other ∈ attempts) (h : other.id ≠ id) :
  other ∈ updateRow id f attempts
  := List.mem_map.mpr ⟨other, hother, if_neg h⟩

/-- A request for a row, and what the database then knows of the row. -/
theorem World.Ok.send (h : world.Ok notifier) (hrow : row ∈ world.attempts)
    {f : Attempt → Attempt} (hf : ∀ row, (f row).id = row.id) {sent : Sent}
    (hsent : sent.row.id = row.id)
    (hok : (f row).Ok notifier (world.sentFor row.id ++ [sent])) :
  World.Ok notifier { world with
    attempts := updateRow row.id f world.attempts
    sent := world.sent ++ [sent] }
  := by
  constructor
  · exact h.running
  · rw [map_id_updateRow hf]
    apply h.names
  · intro other hother
    obtain ⟨before, hbefore, rfl⟩ := List.mem_map.mp hother
    split_ifs with hname
    · obtain rfl := eq_of_id_eq h.names hrow hbefore hname
      rw [hf, World.sentFor, List.filter_append, List.filter_singleton,
        decide_eq_true hsent, cond_true]
      exact hok
    · have hne : ¬ sent.row.id = before.id := by
        rw [hsent]
        exact fun heq => hname heq.symm
      rw [World.sentFor, List.filter_append, List.filter_singleton, decide_eq_false hne,
        cond_false, List.append_nil]
      exact h.rows before hbefore
  · intro request hrequest
    have hmap : ∀ before ∈ world.attempts, ∃ other ∈ updateRow row.id f world.attempts,
        other.id = before.id := by
      intro before hbefore
      refine ⟨_, List.mem_map.mpr ⟨before, hbefore, rfl⟩, ?_⟩
      split_ifs
      · apply hf
      · rfl
    rcases List.mem_append.mp hrequest with hold | hnew
    · obtain ⟨before, hbefore, hname⟩ := h.known request hold
      rw [← hname]
      exact hmap before hbefore
    · rw [List.mem_singleton.mp hnew, hsent]
      exact hmap row hrow

theorem waitOf_updateRow {f : Attempt → Attempt} (hnames : (attempts.map Attempt.id).Nodup)
    (hrow : row ∈ attempts) (recordedAt : Reading) (hf : ∀ row, (f row).id = row.id) :
  waitOf recordedAt row.id (updateRow row.id f attempts) =
    if (f row).state = .pending then some ((f row).nextAttemptAt - recordedAt.nanos) else none
  := by
  have hnames' : ((updateRow row.id f attempts).map Attempt.id).Nodup := by
    rw [map_id_updateRow hf]
    exact hnames
  have hfind := find_eq hnames' (mem_updateRow hrow)
  rw [hf] at hfind
  rw [waitOf, hfind, Option.bind_some]

/-! ### Failures -/

theorem Reading.lt_of_nanos_lt {reading : Reading} {exp : Nat}
    (h : reading.nanos < exp * nanosPerSec) :
  reading.secs < exp
  := by
  have hpos := reading.inRange.1
  simp only [nanosPerSec] at h
  simp only [Reading.secs, nanosPerSec]
  omega

/-- The count of attempts stays a number of 32 bits. -/
theorem nextCount_eq {count : Nat} (h : count < notifier.maxAttempts.toNat) :
  nextCount count = .ok (count + 1)
  := by
  have hlt := notifier.maxAttempts.toNat_lt
  rw [nextCount, Nat.mod_eq_of_lt (by omega), if_pos (by omega)]

/-- A wait that ends in time is computed without saturation or panic. -/
theorem addMilliseconds_backoff {count exp : Nat} {now : Reading}
    (hexp : exp * nanosPerSec ≤ yearTenThousand + notifyServiceAuthTtlSecs * nanosPerSec)
    (h : notifier.FitsFrom count now.nanos exp) :
  addMilliseconds now.nanos (asI64 (notifier.backoffMs count)) =
    .ok (now.nanos + Backoff.wait notifier.initialBackoffMs.toNat count * nanosPerMilli)
  := by
  have hpos := now.inRange.1
  simp only [Notifier.FitsFrom, yearTenThousand, notifyServiceAuthTtlSecs, nanosPerSec,
    nanosPerMilli] at h hexp
  have hfits : Backoff.wait notifier.initialBackoffMs.toNat count < 2 ^ 63 := by omega
  have hexact : notifier.backoffMs count = Backoff.wait notifier.initialBackoffMs.toNat count :=
    Backoff.saturatedWait_eq (by omega)
  rw [hexact, asI64, if_pos hfits, addMilliseconds, if_neg (by omega), if_pos]
  simp only [minUtc, maxUtc, nanosPerSec, nanosPerMilli]
  omega

/-- The token of a row that is due has not expired. -/
theorem Attempt.Ok.isFresh {sent : List Sent} (h : row.Ok notifier sent)
    (hpending : row.state = .pending) {sentAt : Reading} (hprompt : sentAt.nanos = row.nextAttemptAt)
    (waits : Option Int) :
  Sent.IsFresh ⟨row, sentAt, waits⟩
  := by
  obtain ⟨-, token, htoken, -, hfits⟩ := h.inTime hpending
  refine ⟨token, htoken, Reading.lt_of_nanos_lt ?_⟩
  rw [show Sent.sentAt ⟨row, sentAt, waits⟩ = sentAt from rfl, hprompt]
  exact hfits

/-- What is known of a row after it has been sent. -/
theorem Attempt.Ok.send {sent : List Sent} (h : row.Ok notifier sent)
    (hpending : row.state = .pending) {sentAt : Reading} (hprompt : sentAt.nanos = row.nextAttemptAt)
    {waits : Option Int} {after : Attempt} (hcount : after.attemptCount = row.attemptCount + 1)
    (hwaits : ∀ wait ∈ waits, wait = Backoff.wait notifier.initialBackoffMs.toNat
      (row.attemptCount + 1) * nanosPerMilli)
    (hinTime : after.state = .pending → after.attemptCount < notifier.maxAttempts.toNat ∧
      ∃ token, after.authToken = some token ∧
        token.claims.exp * nanosPerSec ≤ yearTenThousand + notifyServiceAuthTtlSecs * nanosPerSec ∧
        after.nextAttemptAt < token.claims.exp * nanosPerSec) :
  after.Ok notifier (sent ++ [⟨row, sentAt, waits⟩])
  := by
  have hlonger : ∀ wait ∈ sent.filterMap Sent.waits, wait ≤
      Backoff.wait notifier.initialBackoffMs.toNat (row.attemptCount + 1) * nanosPerMilli := by
    intro wait hwait
    have hle := h.waits_le wait hwait
    have hsucc : Backoff.wait notifier.initialBackoffMs.toNat row.attemptCount ≤
        Backoff.wait notifier.initialBackoffMs.toNat (row.attemptCount + 1) :=
      Backoff.wait_le_wait_succ
    simp only [nanosPerMilli] at hle ⊢
    omega
  have hnew : List.filterMap Sent.waits [⟨row, sentAt, waits⟩] = waits.toList := by
    cases waits with
    | none => rfl
    | some wait => rfl
  constructor
  · rw [List.length_append, List.length_singleton, h.length_sent, hcount]
  · rw [hcount]
    exact (h.inTime hpending).1
  · intro request hrequest
    rcases List.mem_append.mp hrequest with hold | hlast
    · exact h.fresh request hold
    · rw [List.mem_singleton.mp hlast]
      exact h.isFresh hpending hprompt waits
  · rw [List.filterMap_append, hnew, List.pairwise_append]
    refine ⟨h.sorted, ?_, ?_⟩
    · cases waits with
      | none => exact List.Pairwise.nil
      | some wait => exact List.pairwise_singleton _ _
    · intro wait hwait wait' hwait'
      rw [hwaits wait' (Option.mem_toList.mp hwait')]
      exact hlonger wait hwait
  · rw [List.filterMap_append, hnew, hcount]
    intro wait hwait
    rcases List.mem_append.mp hwait with hold | hlast
    · exact hlonger wait hold
    · exact (hwaits wait (Option.mem_toList.mp hlast)).le
  · exact hinTime

/-- A failure that is recorded in time. -/
theorem World.Ok.deliveryFailed (h : world.Ok notifier) (hrow : row ∈ world.attempts)
    (hpending : row.state = .pending) {sentAt recordedAt : Reading}
    (hprompt : sentAt.nanos = row.nextAttemptAt)
    (hfits : ∀ token ∈ row.authToken, row.attemptCount + 1 < notifier.maxAttempts.toNat →
      notifier.FitsFrom (row.attemptCount + 1) recordedAt.nanos token.claims.exp) (error : String) :
  ∃ after, deliveryFailed notifier sentAt recordedAt error row world = .ok after ∧
    after.Ok notifier ∧ ∀ other ∈ world.attempts, other.id ≠ row.id → other ∈ after.attempts
  := by
  have hok := h.rows row hrow
  obtain ⟨hlt, token, htoken, hexp, -⟩ := hok.inTime hpending
  have hnext := nextCount_eq hlt
  rw [Notify.deliveryFailed, recordFailure, find_eq h.names hrow]
  simp only [hnext]
  by_cases hlast : notifier.maxAttempts.toNat ≤ row.attemptCount + 1
  · refine ⟨_, by simp only [bind, Except.bind, if_pos hlast]; rfl, ?_, ?_⟩
    · refine h.send hrow (Attempt.id_asFailed recordedAt error _) rfl ?_
      rw [waitOf_updateRow h.names hrow recordedAt (Attempt.id_asFailed recordedAt error _)]
      apply hok.send hpending hprompt rfl
      · intro wait hwait
        cases hwait
      · intro hstate
        cases hstate
    · exact fun other hother hne => mem_updateRow_of_ne hother hne
  · have hlt' : row.attemptCount + 1 < notifier.maxAttempts.toNat := by omega
    have hfits' := hfits token htoken hlt'
    refine ⟨_, by simp only [bind, Except.bind, if_neg hlast,
      addMilliseconds_backoff hexp hfits']; rfl, ?_, ?_⟩
    · refine h.send hrow (Attempt.id_asRetried recordedAt error _ _) rfl ?_
      rw [waitOf_updateRow h.names hrow recordedAt (Attempt.id_asRetried recordedAt error _ _)]
      apply hok.send hpending hprompt rfl
      · intro wait hwait
        rw [← Option.mem_some.mp hwait]
        exact add_sub_cancel_left _ _
      · intro _
        exact ⟨hlt', token, htoken, hexp, hfits'⟩
    · exact fun other hother hne => mem_updateRow_of_ne hother hne

/-- A row that is sent when it falls due. -/
theorem World.Ok.deliver (h : world.Ok notifier) (hrow : row ∈ world.attempts)
    (hpending : row.state = .pending) {reply : Reply} (hprompt : reply.sentAt.nanos = row.nextAttemptAt)
    (hfits : reply.Fits notifier row) :
  ∃ after, deliver notifier reply row world = .ok after ∧
    after.Ok notifier ∧ ∀ other ∈ world.attempts, other.id ≠ row.id → other ∈ after.attempts
  := by
  obtain ⟨sentAt, answer⟩ := reply
  cases answer with
  | success recordedAt =>
    refine ⟨_, rfl, ?_, fun other hother hne => mem_updateRow_of_ne hother hne⟩
    apply h.send hrow (Attempt.id_asDelivered recordedAt) rfl
    apply (h.rows row hrow).send hpending hprompt rfl
    · intro wait hwait
      cases hwait
    · intro hstate
      cases hstate
  | refused status recordedAt =>
    apply h.deliveryFailed hrow hpending hprompt
    exact hfits recordedAt rfl
  | unreachable error recordedAt =>
    apply h.deliveryFailed hrow hpending hprompt
    exact hfits recordedAt rfl

/-! ### Ticks -/

theorem mem_dueNow {now : Reading} {limit : Nat} (h : row ∈ dueNow now limit attempts) :
  row ∈ attempts ∧ row.state = .pending
  := by
  have hsorted := List.mem_of_mem_take h
  rw [List.mem_insertionSort, List.mem_filter, decide_eq_true_eq] at hsorted
  exact ⟨hsorted.1, hsorted.2.1⟩

/-- A row is due once. -/
theorem nodup_dueNow (hnames : (attempts.map Attempt.id).Nodup) {now : Reading} {limit : Nat} :
  ((dueNow now limit attempts).map Attempt.id).Nodup
  := by
  have hfilter : ((attempts.filter fun row =>
      row.state = .pending ∧ row.nextAttemptAt ≤ now.nanos).map Attempt.id).Nodup :=
    hnames.sublist (List.filter_sublist.map _)
  apply List.Nodup.sublist ((List.take_sublist _ _).map _)
  exact ((List.perm_insertionSort _ _).map _).nodup_iff.mpr hfilter

/-- Rows that are sent one after the other. -/
theorem World.Ok.foldlM {replies : String → Reply} {due : List Attempt} (h : world.Ok notifier)
    (hdue : (due.map Attempt.id).Nodup)
    (hrows : ∀ row ∈ due, row ∈ world.attempts ∧ row.state = .pending ∧
      (replies row.id).sentAt.nanos = row.nextAttemptAt ∧ (replies row.id).Fits notifier row) :
  ∃ after, due.foldlM (fun world row => Notify.deliver notifier (replies row.id) row world) world =
    .ok after ∧ after.Ok notifier
  := by
  induction due generalizing world with
  | nil => exact ⟨world, rfl, h⟩
  | cons row due ih =>
    rw [List.map_cons, List.nodup_cons] at hdue
    obtain ⟨hrow, hpending, hprompt, hfits⟩ := hrows row List.mem_cons_self
    obtain ⟨next, hnext, hok, hothers⟩ := h.deliver hrow hpending hprompt hfits
    rw [List.foldlM_cons, hnext]
    apply ih hok hdue.2
    intro other hother
    obtain ⟨hmem, hrest⟩ := hrows other (List.mem_cons_of_mem _ hother)
    refine ⟨hothers other hmem ?_, hrest⟩
    intro heq
    apply hdue.1
    rw [← heq]
    exact List.mem_map_of_mem hother

/-! ### Writes -/

/-- A row that has just been queued. -/
structure Attempt.Queued (draw : Draw) (row : Attempt) : Prop where
  name : row.id = draw.rowId
  count : row.attemptCount = 0
  due : row.nextAttemptAt = draw.queuedAt.nanos
  token : ∃ token, row.authToken = some token ∧
    token.claims.exp = draw.mintedAt.secs + notifyServiceAuthTtlSecs

/-- Recipients with endpoints that are accepted, each of which gets its row. -/
theorem enqueueRecipients_eq {announcement : Announcement}
    (hsigns : ∀ header claims, ∃ signature,
      libraries.sign announcement.key header claims = .ok signature)
    {recipients : List Registration}
    (hendpoints : ∀ recipient ∈ recipients,
      validateServiceEndpoint libraries.url recipient.serviceEndpoint = .ok ())
    {count : Nat}
    (hnames : (attempts.map Attempt.id ++ (List.range' count recipients.length).map
      fun i => (announcement.readings.draws i).rowId).Nodup) :
  ∃ rows, (enqueueRecipients libraries announcement count recipients attempts).1 =
      attempts ++ rows ∧
    rows.map Attempt.targetServiceDid = recipients.map Registration.serviceDid ∧
    rows.map Attempt.id = (List.range' count recipients.length).map
      (fun i => (announcement.readings.draws i).rowId) ∧
    ∀ row ∈ rows, ∃ i, i < count + recipients.length ∧ row.Queued (announcement.readings.draws i)
  := by
  induction recipients generalizing count attempts with
  | nil =>
    refine ⟨[], (List.append_nil _).symm, rfl, rfl, ?_⟩
    exact fun row hrow => absurd hrow List.not_mem_nil
  | cons recipient recipients ih =>
    obtain ⟨signature, hsign⟩ := hsigns
      { alg := jwsAlg announcement.key, typ := typServiceAuth, kid := some serviceAuthKid }
      (mintedClaims announcement.spaceDid recipient.serviceDid announcement.nsid
        notifyServiceAuthTtlSecs (announcement.readings.draws count))
    rw [List.length_cons, List.range'_succ, List.map_cons] at hnames
    have hfree : ¬ attempts.any
        (fun row => row.id = (announcement.readings.draws count).rowId) = true := by
      rw [List.any_eq_true]
      rintro ⟨row, hrow, hname⟩
      apply (List.nodup_append.mp hnames).2.2 row.id (List.mem_map_of_mem hrow) _
        List.mem_cons_self
      exact of_decide_eq_true hname
    set claims := mintedClaims announcement.spaceDid recipient.serviceDid announcement.nsid
      notifyServiceAuthTtlSecs (announcement.readings.draws count) with hclaims
    rw [enqueueRecipients, hendpoints recipient List.mem_cons_self]
    simp only [mintServiceAuth, ← hclaims, hsign, enqueueNotification, if_neg hfree]
    set row := newAttempt recipient.serviceDid recipient.serviceEndpoint announcement.body
      announcement.nsid announcement.contentType _ (announcement.readings.draws count)
    have hnames' : ((attempts ++ [row]).map Attempt.id ++
        (List.range' (count + 1) recipients.length).map
          fun i => (announcement.readings.draws i).rowId).Nodup := by
      rw [List.map_append, List.append_assoc]
      exact hnames
    obtain ⟨rows, hrows, hservices, hids, hqueued⟩ :=
      ih (fun other hother => hendpoints other (List.mem_cons_of_mem _ hother)) hnames'
    refine ⟨row :: rows, ?_, ?_, ?_, ?_⟩
    · rw [hrows, List.append_assoc, List.singleton_append]
    · rw [List.map_cons, List.map_cons, hservices]
      rfl
    · rw [List.map_cons, hids, List.length_cons, List.range'_succ, List.map_cons]
      rfl
    · intro other hother
      rcases List.mem_cons.mp hother with rfl | hother
      · exact ⟨count, by simp only [List.length_cons]; omega, rfl, rfl, rfl, _, rfl, rfl⟩
      · obtain ⟨i, hi, hnew⟩ := hqueued other hother
        exact ⟨i, by simp only [List.length_cons]; omega, hnew⟩

/-- What a write queues when the condition holds. -/
theorem Write.Fits.enqueue {write : Write} (h : write.Fits libraries notifier attempts) :
  ∃ rows, (enqueueWrites libraries write attempts).1 = attempts ++ rows ∧
    rows.map Attempt.targetServiceDid = write.recipients.map Registration.serviceDid ∧
    ((attempts ++ rows).map Attempt.id).Nodup ∧
    ∀ row ∈ rows, row.Ok notifier []
  := by
  obtain ⟨body, hbody⟩ := h.encodes
  obtain ⟨rows, hrows, hservices, hids, hqueued⟩ :=
    @enqueueRecipients_eq libraries attempts (write.announcement body) h.signs write.recipients
      h.endpoints 0 h.names
  refine ⟨rows, ?_, hservices, ?_, ?_⟩
  · rw [enqueueWrites, hbody]
    exact hrows
  · rw [List.map_append, hids]
    exact h.names
  · intro row hrow
    obtain ⟨i, hi, hnew⟩ := hqueued row hrow
    rw [Nat.zero_add] at hi
    change row.Queued (write.readings.draws i) at hnew
    obtain ⟨hpos, hfits⟩ := h.inTime i hi
    obtain ⟨token, htoken, hexp⟩ := hnew.token
    constructor
    · exact hnew.count.symm
    · rw [hnew.count]
      apply Nat.zero_le
    · exact fun request hrequest => absurd hrequest List.not_mem_nil
    · exact List.Pairwise.nil
    · exact fun wait hwait => absurd hwait List.not_mem_nil
    · intro _
      rw [hnew.count, hnew.due]
      refine ⟨hpos, token, htoken, ?_, ?_⟩
      · rw [hexp]
        have hrange := (write.readings.draws i).mintedAt.inRange
        simp only [yearTenThousand, Reading.secs, nanosPerSec, Nat.cast_add] at hrange ⊢
        omega
      · rw [hexp]
        exact hfits

/-! ### Runs -/

/-- What one event preserves. -/
theorem World.Ok.step {event : Event} (h : world.Ok notifier)
    (hprompt : Prompt notifier world event) (hfits : Fits libraries notifier world event) :
  (step libraries notifier world event).Ok notifier
  := by
  cases event with
  | tick now replies =>
    have hrows : ∀ row ∈ dueNow now notifier.batchSize.toNat world.attempts,
        row ∈ world.attempts ∧ row.state = .pending ∧
          (replies row.id).sentAt.nanos = row.nextAttemptAt ∧ (replies row.id).Fits notifier row :=
      fun row hrow => ⟨(mem_dueNow hrow).1, (mem_dueNow hrow).2, hprompt row hrow, hfits row hrow⟩
    obtain ⟨after, hafter, hok⟩ := h.foldlM (nodup_dueNow h.names) hrows
    rw [Notify.step, tick, hafter]
    exact hok
  | write write =>
    obtain ⟨rows, hrows, -, hnames, hnew⟩ := Write.Fits.enqueue hfits
    rw [Notify.step, hrows]
    constructor
    · exact h.running
    · exact hnames
    · intro row hrow
      rcases List.mem_append.mp hrow with hold | hqueued
      · exact h.rows row hold
      · have hnone : world.sentFor row.id = [] := by
          apply List.filter_eq_nil_iff.mpr
          intro sent hsent heq
          obtain ⟨other, hother, hname⟩ := h.known sent hsent
          rw [decide_eq_true_eq] at heq
          rw [List.map_append, List.nodup_append] at hnames
          exact hnames.2.2 other.id (List.mem_map_of_mem hother) row.id
            (List.mem_map_of_mem hqueued) (hname.trans heq)
        have hsame : World.sentFor { world with attempts := world.attempts ++ rows } row.id =
            world.sentFor row.id := rfl
        rw [hsame, hnone]
        exact hnew row hqueued
    · intro sent hsent
      obtain ⟨row, hrow, hname⟩ := h.known sent hsent
      exact ⟨row, List.mem_append_left _ hrow, hname⟩

/-- What a write queues is one delivery for each service. -/
theorem Write.Fits.queuesOnce {write : Write} (h : write.Fits libraries notifier world.attempts) :
  QueuesOnce world (step libraries notifier world (.write write)) (.write write)
  := by
  obtain ⟨rows, hrows, hservices, -, -⟩ := h.enqueue
  rintro service ⟨recipient, hrecipient, rfl⟩
  rw [step, hrows, List.drop_left]
  have hcount : rows.countP (fun row => row.targetServiceDid = recipient.serviceDid) =
      (rows.map Attempt.targetServiceDid).count recipient.serviceDid := by
    rw [List.count_eq_countP, List.countP_map]
    apply List.countP_congr
    intro row _
    rw [decide_eq_true_eq, Function.comp_apply, beq_iff_eq]
  rw [hcount, hservices]
  exact List.count_eq_one_of_mem h.services (List.mem_map_of_mem hrecipient)

/-- Nothing has happened at first. -/
theorem ok_start :
  start.Ok notifier
  := by
  constructor
  · rfl
  · exact List.nodup_nil
  · exact fun row hrow => absurd hrow List.not_mem_nil
  · exact fun sent hsent => absurd hsent List.not_mem_nil

variable {events : List Event}

/-- Notifications stay deliverable in every run in which each row is sent when it falls due, each
service has one live registration that a write concerns, with an endpoint that is accepted, and each
wait that is recorded ends before the token of its row expires. -/
theorem deliverable_run
    (hprompt : Along (step libraries notifier) (Prompt notifier) start events)
    (hfits : Along (step libraries notifier) (Fits libraries notifier) start events) :
  (run (step libraries notifier) start events).Deliverable notifier ∧
    Along (step libraries notifier) (fun world event =>
      world.Deliverable notifier ∧ QueuesOnce world (step libraries notifier world event) event)
      start events
  := by
  have hboth := along_and hprompt hfits
  constructor
  · apply World.Ok.deliverable
    exact invariant_run (fun world event hok hstep => hok.step hstep.1 hstep.2) hboth ok_start
  · apply along_imp _ (fun world event hok hstep => World.Ok.step hok hstep.1 hstep.2) ok_start hboth
    intro world event hok hstep
    refine ⟨hok.deliverable, ?_⟩
    cases event with
    | tick now replies => trivial
    | write write => exact Write.Fits.queuesOnce hstep.2

/-! ### A write and its announcement -/

/-- Seconds of the first minutes of a year. -/
def sampleReading (secs : Fin 1000) : Reading :=
  ⟨(1767225600 + secs.val) * nanosPerSec, by
    have h := secs.isLt
    simp only [yearTenThousand, nanosPerSec]
    omega⟩

def samplePayload : NotifyWritePayload :=
  { space := "at://did:web:space.example/site.standard.space/self"
    repo := "did:web:writer.example"
    rev := "3mbcxf2kg2s2a"
    hash := none }

/-- The libraries for one key, one endpoint and payloads without a hash. -/
def sampleLibraries : Libraries :=
  { url := sampleUrls
    sign := fun _ _ _ => .ok (List.replicate 64 7)
    encodePayload := fun payload => .ok (textOf
      s!"\x7b\"space\":\"{payload.space}\",\"repo\":\"{payload.repo}\",\"rev\":\"{payload.rev}\"\x7d").bytes }

/-- A write with one registration for the whole space. -/
def sampleWrite : Write :=
  { spaceDid := "did:web:space.example"
    payload := samplePayload
    key := ⟨.p256Private, List.replicate 32 1⟩
    readings :=
      { readAt := sampleReading 0
        registrations := [⟨"did:web:pds.example.com", "https://pds.example.com/", "", none⟩]
        draws := fun _ => ⟨sampleReading 0, "AAAAAAAAAAAAAAAAAAAAAA", sampleReading 0, "abcdefgh",
          sampleReading 0⟩ } }

/-- The service answers at once that it is not available. -/
def sampleTick (secs : Fin 1000) : Event :=
  .tick (sampleReading secs) fun _ =>
    ⟨sampleReading secs, .refused "503 Service Unavailable" (sampleReading secs)⟩

/-- A service that is not available for a minute. -/
def sampleEvents : List Event :=
  [.write sampleWrite, sampleTick 0, sampleTick 2, sampleTick 6, sampleTick 14, sampleTick 30,
    sampleTick 62]

instance {notifier : Notifier} {world : World} {event : Event} :
    Decidable (Prompt notifier world event) :=
  match event with
  | .write _ => inferInstanceAs (Decidable True)
  | .tick now replies => inferInstanceAs (Decidable
      (∀ row ∈ dueNow now notifier.batchSize.toNat world.attempts,
        (replies row.id).sentAt.nanos = row.nextAttemptAt))

instance {failures : Nat} {time : Int} {exp : Nat} :
    Decidable (notifier.FitsFrom failures time exp) :=
  inferInstanceAs (Decidable
    (time + Backoff.wait notifier.initialBackoffMs.toNat failures * nanosPerMilli <
      exp * nanosPerSec))

instance {reply : Reply} {row : Attempt} : Decidable (reply.Fits notifier row) :=
  inferInstanceAs (Decidable (∀ recordedAt ∈ reply.answer.failedAt, ∀ token ∈ row.authToken,
    row.attemptCount + 1 < notifier.maxAttempts.toNat →
    notifier.FitsFrom (row.attemptCount + 1) recordedAt.nanos token.claims.exp))

instance {now : Reading} {replies : String → Reply} :
    Decidable (Fits libraries notifier world (.tick now replies)) :=
  inferInstanceAs (Decidable (∀ row ∈ dueNow now notifier.batchSize.toNat world.attempts,
    (replies row.id).Fits notifier row))

/-- A service that is not available for a few seconds, and then accepts what it is sent. -/
def shortEvents : List Event :=
  [.write sampleWrite, sampleTick 0, sampleTick 2,
    .tick (sampleReading 6) fun _ => ⟨sampleReading 6, .success (sampleReading 6)⟩]

/-- With the settings that nobody has changed, the third request is sent in time and accepted. -/
theorem deliverable_run_short :
  ((run (step sampleLibraries defaultNotifier) start shortEvents).Deliverable defaultNotifier ∧
    Along (step sampleLibraries defaultNotifier) (fun world event =>
      world.Deliverable defaultNotifier ∧
        QueuesOnce world (step sampleLibraries defaultNotifier world event) event)
      start shortEvents) ∧
  (run (step sampleLibraries defaultNotifier) start shortEvents).sent.length = 3 ∧
    (run (step sampleLibraries defaultNotifier) start shortEvents).attempts.map Attempt.state =
      [.delivered]
  := by
  refine ⟨?_, by decide +kernel⟩
  apply deliverable_run (by decide +kernel)
  have hrecipients : sampleWrite.recipients =
      [⟨"did:web:pds.example.com", "https://pds.example.com/", "", none⟩] := by
    decide +kernel
  refine ⟨?_, ?_, ?_, ?_, trivial⟩
  · constructor
    · exact ⟨_, rfl⟩
    · exact fun _ _ => ⟨_, rfl⟩
    · rw [hrecipients]
      exact List.nodup_singleton _
    · rw [hrecipients]
      intro recipient hrecipient
      rw [List.mem_singleton.mp hrecipient]
      exact isOk_iff.mp (by decide +kernel)
    · rw [hrecipients]
      exact List.nodup_singleton _
    · rw [hrecipients]
      intro i hi
      rw [Nat.lt_one_iff.mp hi]
      decide +kernel
  · change Fits _ _ _ (.tick _ _)
    decide +kernel
  · change Fits _ _ _ (.tick _ _)
    decide +kernel
  · decide +kernel

/-- With the settings that nobody has changed, the sixth request is sent after its token has
expired. -/
theorem deliverable_run_default :
  Along (step sampleLibraries defaultNotifier) (Prompt defaultNotifier) start sampleEvents ∧
    ¬ (run (step sampleLibraries defaultNotifier) start sampleEvents).Deliverable defaultNotifier
  := by
  constructor
  · decide +kernel
  · intro h
    have hstale : ((run (step sampleLibraries defaultNotifier) start sampleEvents).sent.any
        fun sent => sent.row.authToken.all fun token => token.claims.exp ≤ sent.sentAt.secs) =
          true := by
      decide +kernel
    rw [List.any_eq_true] at hstale
    obtain ⟨sent, hsent, hall⟩ := hstale
    obtain ⟨token, htoken, hlt⟩ := (h.2 sent.row.id).2.1 sent
      (List.mem_filter.mpr ⟨hsent, decide_eq_true rfl⟩)
    rw [htoken, Option.all_some, decide_eq_true_eq] at hall
    omega

end Atproto.Pds.Notify
