import Atproto.Logic.Guard
import Atproto.Logic.Once
import Mathlib.Logic.Function.Basic
import Mathlib.Order.Basic
import Mathlib.Tactic.Ring
import Mathlib.Tactic.SplitIfs

/-!
# The replay guard

A proof of possession carries an identifier, its JTI, and the guard admits a JTI once
within its lifetime.  In memory the guard keeps the deadlines of the JTIs and a queue in
the order of their insertion, from which expired entries are evicted; the SQL backend
keeps a row for each JTI.  Times are nanoseconds.
-/

namespace Atproto.Pds.JtiReplay

open Logic

/-- Why a JTI is refused. -/
inductive JtiRejection where
  | replayed
  | unavailable
deriving DecidableEq

/-- How a call ends.  A deadline out of the range of the clock is a panic. -/
inductive Outcome where
  | accepted
  | refused (reason : JtiRejection)
  | panicked
deriving DecidableEq

/-! ### In memory -/

/-- The first second that an `Instant` does not reach, in nanoseconds. -/
def instantLimit : Nat := 2 ^ 63 * 10 ^ 9

/-- The deadlines of the JTIs, and the queue of insertions. -/
structure MemoryJti where
  seen : String → Option Nat
  insertionOrder : List (String × Nat)
  maxEntries : Nat

namespace MemoryJti

/-- A guard that has seen nothing. -/
def new (maxEntries : Nat) : MemoryJti where
  seen _ := none
  insertionOrder := []
  maxEntries := maxEntries

/-- Forget the expired entries at the front of the queue, and the JTIs they name. -/
@[grind =]
def evict (now : Nat) : (String → Option Nat) → List (String × Nat) →
    (String → Option Nat) × List (String × Nat)
  | seen, [] => (seen, [])
  | seen, (jti, deadline) :: order =>
    if deadline ≥ now then (seen, (jti, deadline) :: order)
    else evict now (Function.update seen jti none) order

/-- A JTI is free when it has not been seen or its record has expired. -/
def isFree (state : MemoryJti) (now : Nat) (jti : String) : Bool :=
  match state.seen jti with
  | some deadline => deadline < now
  | none => true

/-- Check a JTI and record it for its lifetime. -/
def checkAndInsert (state : MemoryJti) (now ttl : Nat) (jti : String) : Outcome × MemoryJti :=
  if now + ttl ≥ instantLimit then (.panicked, state)
  else
    let deadline := now + ttl
    if ¬ state.isFree now jti then (.refused .replayed, state)
    else
      let (seen, order) := evict now (Function.update state.seen jti (some deadline))
        (state.insertionOrder ++ [(jti, deadline)])
      if order.length > state.maxEntries then
        (.refused .unavailable,
          { state with seen := Function.update seen jti none, insertionOrder := order.dropLast })
      else (.accepted, { state with seen := seen, insertionOrder := order })

/-- The in-memory backend. -/
def guard : Guard String MemoryJti Unit where
  step state request _ :=
    let (outcome, state) := state.checkAndInsert request.now request.lifetime request.token
    (outcome = .accepted, state)

/-- The expired entries at the front of the queue. -/
def expiredFront (now : Nat) (order : List (String × Nat)) : List (String × Nat) :=
  order.takeWhile fun entry => entry.2 < now

/-- No expired entry at the front of the queue is of the JTI that the call admits or of one
whose record has not expired. -/
def EvictsNoneLive (state : MemoryJti) (request : Request String) (_ : Unit) : Prop :=
  state.isFree request.now request.token = true →
    ∀ entry ∈ expiredFront request.now state.insertionOrder,
      entry.1 ≠ request.token ∧ state.isFree request.now entry.1 = true

/-- The record of a JTI lasts until a time. -/
def Remembers (state : MemoryJti) (jti : String) (deadline : Nat) : Prop :=
  ∃ recorded, state.seen jti = some recorded ∧ deadline ≤ recorded

/-- Eviction leaves a JTI alone that no expired entry at the front names. -/
theorem evict_of_not_mem {now : Nat} {order : List (String × Nat)} {jti : String}
    (h : ∀ entry ∈ expiredFront now order, entry.1 ≠ jti) (seen : String → Option Nat) :
  (evict now seen order).1 jti = seen jti
  := by
  induction order generalizing seen with
  | nil => rfl
  | cons entry order ih =>
    obtain ⟨other, deadline⟩ := entry
    rw [evict]
    split
    · rfl
    · next hlt =>
      have hfront : expiredFront now ((other, deadline) :: order) =
          (other, deadline) :: expiredFront now order := by
        rw [expiredFront, List.takeWhile_cons_of_pos (by simpa using hlt), expiredFront]
      rw [hfront] at h
      rw [ih fun entry hentry => h entry (List.mem_cons_of_mem _ hentry)]
      exact Function.update_of_ne (h _ List.mem_cons_self).symm _ _

/-- A new entry is not among the expired ones. -/
theorem expiredFront_append (now ttl : Nat) (order : List (String × Nat)) (jti : String) :
  expiredFront now (order ++ [(jti, now + ttl)]) = expiredFront now order
  := by
  induction order with
  | nil =>
    have hlive : ¬ now + ttl < now := Nat.not_lt.mpr (Nat.le_add_right now ttl)
    simp [expiredFront, hlive]
  | cons entry order ih =>
    rw [List.cons_append, expiredFront, expiredFront, List.takeWhile_cons, List.takeWhile_cons]
    split
    · rw [← expiredFront, ← expiredFront, ih]
    · rfl

variable {state : MemoryJti} {now ttl : Nat} {jti : String}

theorem not_isFree_of_remembers {deadline : Nat} (h : state.Remembers jti deadline)
    (hlt : now < deadline) :
  state.isFree now jti = false
  := by
  obtain ⟨recorded, hrecorded, hle⟩ := h
  rw [isFree, hrecorded]
  exact decide_eq_false (Nat.not_lt.mpr (Nat.le_trans (Nat.le_of_lt hlt) hle))

/-- What a call does that finds its JTI free. -/
theorem checkAndInsert_of_isFree (hlimit : ¬ now + ttl ≥ instantLimit)
    (hfree : state.isFree now jti = true)
    (h : ∀ entry ∈ expiredFront now state.insertionOrder, entry.1 ≠ jti) :
  ((state.checkAndInsert now ttl jti).1 = .accepted →
    (state.checkAndInsert now ttl jti).2.seen jti = some (now + ttl)) ∧
  ∀ other, other ≠ jti → (∀ entry ∈ expiredFront now state.insertionOrder, entry.1 ≠ other) →
    (state.checkAndInsert now ttl jti).2.seen other = state.seen other
  := by
  have hevict : ∀ other, (∀ entry ∈ expiredFront now state.insertionOrder, entry.1 ≠ other) →
      (evict now (Function.update state.seen jti (some (now + ttl)))
        (state.insertionOrder ++ [(jti, now + ttl)])).1 other =
        Function.update state.seen jti (some (now + ttl)) other := by
    intro other hother
    apply evict_of_not_mem
    rwa [expiredFront_append]
  rw [checkAndInsert, if_neg hlimit, if_neg (not_not.mpr hfree)]
  dsimp only
  split
  · constructor
    · nofun
    · intro other hne hother
      dsimp only
      rw [Function.update_of_ne hne, hevict other hother, Function.update_of_ne hne]
  · constructor
    · intro _
      exact (hevict jti h).trans (Function.update_self _ _ _)
    · intro other hne hother
      exact (hevict other hother).trans (Function.update_of_ne hne _ _)

theorem remembering :
  guard.Remembering Remembers EvictsNoneLive
  where
  recorded state request answer h haccepted := by
    have haccepted' : (state.checkAndInsert request.now request.lifetime request.token).1 =
        .accepted := of_decide_eq_true haccepted
    by_cases hlimit : request.now + request.lifetime ≥ instantLimit
    · rw [checkAndInsert, if_pos hlimit] at haccepted'
      cases haccepted'
    · by_cases hfree : state.isFree request.now request.token = true
      · have hspec := checkAndInsert_of_isFree hlimit hfree fun entry hentry => (h hfree entry hentry).1
        exact ⟨_, hspec.1 haccepted', Nat.le_refl _⟩
      · rw [checkAndInsert, if_neg hlimit, if_pos hfree] at haccepted'
        cases haccepted'
  kept state request answer jti deadline h hremembers hlt := by
    change Remembers (state.checkAndInsert request.now request.lifetime request.token).2 jti deadline
    by_cases hlimit : request.now + request.lifetime ≥ instantLimit
    · rw [checkAndInsert, if_pos hlimit]
      exact hremembers
    · by_cases hfree : state.isFree request.now request.token = true
      · have hlive := not_isFree_of_remembers hremembers hlt
        have hne : jti ≠ request.token := by
          rintro rfl
          rw [hlive] at hfree
          cases hfree
        have hfront : ∀ entry ∈ expiredFront request.now state.insertionOrder, entry.1 ≠ jti := by
          rintro entry hentry rfl
          rw [(h hfree entry hentry).2] at hlive
          cases hlive
        have hspec := @checkAndInsert_of_isFree state request.now request.lifetime request.token
          hlimit hfree fun entry hentry => (h hfree entry hentry).1
        obtain ⟨recorded, hrecorded, hle⟩ := hremembers
        exact ⟨recorded, (hspec.2 jti hne hfront).trans hrecorded, hle⟩
      · rw [checkAndInsert, if_neg hlimit, if_pos hfree]
        exact hremembers
  refused state request answer deadline hremembers hlt := by
    have hlive := not_isFree_of_remembers hremembers hlt
    change decide ((state.checkAndInsert request.now request.lifetime request.token).1 = _) = _
    rw [checkAndInsert]
    split
    · rfl
    · rw [hlive, if_pos Bool.false_ne_true]
      rfl

/-! What the guard knows are the JTIs that it has admitted, as long as none is evicted that has not
expired. -/

/-- There is room for another JTI when the expired entries at the front of the queue are gone. -/
def HasRoom (state : MemoryJti) (now : Nat) : Prop :=
  (state.insertionOrder.dropWhile fun entry => entry.2 < now).length < state.maxEntries

instance (state : MemoryJti) (now : Nat) : Decidable (state.HasRoom now) :=
  inferInstanceAs (Decidable (_ < _))

/-- The free JTIs are those that are free after a history, from a time on. -/
def Tracks (state : MemoryJti) (since : Nat) (history : List (String × Nat)) : Prop :=
  ∀ now jti, since ≤ now → state.isFree now jti = !Once.isTaken history now jti

theorem tracks_new (maxEntries since : Nat) :
  (new maxEntries).Tracks since []
  := fun _ _ _ => rfl

theorem Tracks.later {since : Nat} {history : List (String × Nat)} (h : state.Tracks since history)
    (hnow : since ≤ now) :
  state.Tracks now history
  := fun now' jti hnow' => h now' jti (Nat.le_trans hnow hnow')

/-- Eviction leaves the entries behind the expired ones. -/
theorem evict_order (seen : String → Option Nat) (order : List (String × Nat)) :
  (evict now seen order).2 = order.dropWhile fun entry => entry.2 < now
  := by
  induction order generalizing seen with
  | nil => rfl
  | cons entry order ih =>
    obtain ⟨other, deadline⟩ := entry
    rw [evict, List.dropWhile_cons]
    by_cases hlive : deadline ≥ now
    · rw [if_pos hlive, if_neg (by simpa using hlive)]
    · rw [if_neg hlive, if_pos (by simpa using hlive), ih]

/-- Eviction forgets what the expired entries at the front name. -/
theorem evict_of_mem {order : List (String × Nat)}
    (h : ∃ entry ∈ expiredFront now order, entry.1 = jti) (seen : String → Option Nat) :
  (evict now seen order).1 jti = none
  := by
  induction order generalizing seen with
  | nil =>
    obtain ⟨entry, hentry, -⟩ := h
    cases hentry
  | cons entry order ih =>
    obtain ⟨other, deadline⟩ := entry
    rw [evict]
    by_cases hlive : deadline ≥ now
    · obtain ⟨entry, hentry, -⟩ := h
      rw [expiredFront, List.takeWhile_cons_of_neg (by simpa using hlive)] at hentry
      cases hentry
    · rw [if_neg hlive]
      by_cases hrest : ∃ entry ∈ expiredFront now order, entry.1 = jti
      · exact ih hrest _
      · rw [evict_of_not_mem fun entry hentry heq => hrest ⟨entry, hentry, heq⟩]
        obtain ⟨entry, hentry, rfl⟩ := h
        rw [expiredFront, List.takeWhile_cons_of_pos (by simpa using hlive)] at hentry
        rcases List.mem_cons.mp hentry with rfl | hentry
        · exact Function.update_self _ _ _
        · exact absurd ⟨entry, hentry, rfl⟩ hrest

theorem isFree_later {now' : Nat} (h : state.isFree now jti = true) (hle : now ≤ now') :
  state.isFree now' jti = true
  := by
  rw [isFree] at h ⊢
  cases hseen : state.seen jti with
  | none => rfl
  | some deadline =>
    rw [hseen] at h
    have hlt : deadline < now := of_decide_eq_true h
    exact decide_eq_true (Nat.lt_of_lt_of_le hlt hle)

theorem isFree_of_seen {deadline : Nat} (h : state.seen jti = some deadline) :
  state.isFree now jti = decide (deadline < now)
  := by
  rw [isFree, h]

/-- What eviction leaves of a JTI after another one has been admitted. -/
theorem isFree_evict_of_ne {state' : MemoryJti} {other : String} {now' deadline : Nat}
    (hne : other ≠ jti)
    (hfront : ∀ entry ∈ expiredFront now state.insertionOrder, state.isFree now entry.1 = true)
    (hnow' : now ≤ now') {order : List (String × Nat)}
    (horder : expiredFront now order = expiredFront now state.insertionOrder)
    (hseen : state'.seen = (evict now (Function.update state.seen jti (some deadline)) order).1) :
  state'.isFree now' other = state.isFree now' other
  := by
  by_cases hmem : ∃ entry ∈ expiredFront now order, entry.1 = other
  · rw [isFree, hseen, evict_of_mem hmem]
    obtain ⟨entry, hentry, rfl⟩ := hmem
    rw [horder] at hentry
    exact (isFree_later (hfront entry hentry) hnow').symm
  · rw [isFree, hseen, evict_of_not_mem fun entry hentry heq => hmem ⟨entry, hentry, heq⟩,
      Function.update_of_ne hne, isFree]

theorem length_dropWhile_append_le {α : Type} (p : α → Bool) (xs : List α) (x : α) :
  ((xs ++ [x]).dropWhile p).length ≤ (xs.dropWhile p).length + 1
  := by
  rw [List.dropWhile_append]
  split_ifs
  · have hle := (List.dropWhile_sublist (l := [x]) p).length_le
    rw [List.length_singleton] at hle
    omega
  · rw [List.length_append, List.length_singleton]

/-- With room for it, a JTI that is free is admitted, and then the guard knows it. -/
theorem checkAndInsert_tracks {since : Nat} {history : List (String × Nat)}
    (h : state.Tracks since history) (hnow : since ≤ now) (hlimit : now + ttl < instantLimit)
    (hevict : state.EvictsNoneLive ⟨jti, now, ttl⟩ ()) (hroom : state.HasRoom now) :
  (state.checkAndInsert now ttl jti).1 =
      (if Once.isTaken history now jti then .refused .replayed else .accepted) ∧
    (state.checkAndInsert now ttl jti).2.Tracks now
      (Once.record history now (some (jti, now + ttl)))
  := by
  have hlimit' : ¬ now + ttl ≥ instantLimit := Nat.not_le.mpr hlimit
  rw [checkAndInsert, if_neg hlimit', Once.record, Once.gives]
  cases htaken : Once.isTaken history now jti with
  | true =>
    have hfree : ¬ state.isFree now jti = true := by
      rw [h now jti hnow, htaken]
      decide
    rw [if_pos hfree]
    exact ⟨rfl, h.later hnow⟩
  | false =>
    have hfree : state.isFree now jti = true := by
      rw [h now jti hnow, htaken]
      rfl
    have hfront := hevict hfree
    have hlength : ¬ (evict now (Function.update state.seen jti (some (now + ttl)))
        (state.insertionOrder ++ [(jti, now + ttl)])).2.length > state.maxEntries := by
      rw [evict_order]
      have hle := length_dropWhile_append_le (fun entry : String × Nat => decide (entry.2 < now))
        state.insertionOrder (jti, now + ttl)
      rw [HasRoom] at hroom
      omega
    rw [if_neg (not_not.mpr hfree)]
    dsimp only
    rw [if_neg hlength]
    refine ⟨rfl, ?_⟩
    intro now' other hnow'
    rw [Bool.not_false, if_pos rfl, Once.isTaken_append]
    by_cases hne : other = jti
    · subst hne
      have hseen : (evict now (Function.update state.seen other (some (now + ttl)))
          (state.insertionOrder ++ [(other, now + ttl)])).1 other = some (now + ttl) := by
        rw [evict_of_not_mem, Function.update_self]
        rw [expiredFront_append]
        exact fun entry hentry => (hfront entry hentry).1
      rw [isFree_of_seen hseen, Once.isTaken_later htaken hnow', Bool.false_or]
      have hlast : Once.isTaken [(other, now + ttl)] now' other = decide (now' ≤ now + ttl) := by
        simp [Once.isTaken]
      rw [Option.toList_some, hlast, ← decide_not]
      exact decide_eq_decide.mpr Nat.not_le.symm
    · have hother : Once.isTaken [(jti, now + ttl)] now' other = false := by
        simp [Once.isTaken, Ne.symm hne]
      rw [Option.toList_some, hother, Bool.or_false, ← h now' other (Nat.le_trans hnow hnow')]
      exact isFree_evict_of_ne hne (fun entry hentry => (hfront entry hentry).2) hnow'
        (expiredFront_append now ttl state.insertionOrder jti) rfl

end MemoryJti

/-! ### In the database -/

/-- The library of dates: the RFC 3339 text of a time, and the time of such a text. -/
structure Rfc3339 where
  format : Nat → String
  parse : String → Option Nat

/-- A text is read as no other time than the one it was written for. -/
def Rfc3339.Honest (dates : Rfc3339) : Prop :=
  ∀ time time', dates.parse (dates.format time) = some time' → time' = time

/-- The longest duration of the library of dates: `i64::MAX` milliseconds. -/
def maxTimeDelta : Nat := (2 ^ 63 - 1) * 10 ^ 6

/-- The end of the last day of the library of dates, in the year 262142. -/
def dateLimit : Nat := 8210266876800 * 10 ^ 9

/-- The lifetime that is used for a JTI whose own is out of range. -/
def fallbackTtl : Nat := 60 * 10 ^ 9

/-- The `expires_at` column of the table of JTIs. -/
abbrev JtiTable : Type := String → Option String

/-- Whether the statements of a call, if it comes to them, are executed. -/
structure SqlAnswers where
  insert : Bool
  select : Bool
  update : Bool

namespace Sql

/-- A row is live when its time is not over or is not legible. -/
def isLive (dates : Rfc3339) (now : Nat) (expiresAt : String) : Bool :=
  match dates.parse expiresAt with
  | some time => time > now
  | none => true

/-- Check a JTI and record it for its lifetime. -/
def checkAndInsert (dates : Rfc3339) (table : JtiTable) (now ttl : Nat) (jti : String)
    (answers : SqlAnswers) : Outcome × JtiTable :=
  let expiresAt := now + (if ttl ≤ maxTimeDelta then ttl else fallbackTtl)
  if expiresAt ≥ dateLimit then (.panicked, table)
  else if ¬ answers.insert then (.refused .unavailable, table)
  else
    match table jti with
    | none => (.accepted, Function.update table jti (some (dates.format expiresAt)))
    | some row =>
      if ¬ answers.select then (.refused .unavailable, table)
      else if isLive dates now row then (.refused .replayed, table)
      -- Whether the row is in fact refreshed is not looked at.
      else if answers.update then
        (.accepted, Function.update table jti (some (dates.format expiresAt)))
      else (.accepted, table)

/-- The SQL backend. -/
def guard (dates : Rfc3339) : Guard String JtiTable SqlAnswers where
  step table request answers :=
    let (outcome, table) :=
      checkAndInsert dates table request.now request.lifetime request.token answers
    (outcome = .accepted, table)

/-- The lifetime is in range and the row of an expired JTI can be refreshed. -/
def Refreshes (_ : JtiTable) (request : Request String) (answers : SqlAnswers) : Prop :=
  request.lifetime ≤ maxTimeDelta ∧ answers.update = true

/-- The row of a JTI lasts until a time. -/
def Remembers (dates : Rfc3339) (table : JtiTable) (jti : String) (deadline : Nat) : Prop :=
  table jti = some (dates.format deadline)

theorem isLive_format {dates : Rfc3339} (hdates : dates.Honest) {now deadline : Nat}
    (h : now < deadline) :
  isLive dates now (dates.format deadline) = true
  := by
  rw [isLive]
  split
  · next time htime =>
    rw [hdates deadline time htime]
    exact decide_eq_true h
  · rfl

/-- What a call does: it refuses and leaves the table alone, or it accepts a JTI without a
live row and writes its row. -/
theorem checkAndInsert_cases {dates : Rfc3339} {table : JtiTable} {now ttl : Nat} {jti : String}
    {answers : SqlAnswers} (httl : ttl ≤ maxTimeDelta) (hupdate : answers.update = true) :
  ((checkAndInsert dates table now ttl jti answers).1 ≠ .accepted ∧
    (checkAndInsert dates table now ttl jti answers).2 = table) ∨
  ((∀ row, table jti = some row → isLive dates now row = false) ∧
    checkAndInsert dates table now ttl jti answers =
      (.accepted, Function.update table jti (some (dates.format (now + ttl)))))
  := by
  rw [checkAndInsert, if_pos httl]
  by_cases hlimit : now + ttl ≥ dateLimit
  · rw [if_pos hlimit]
    exact Or.inl ⟨nofun, rfl⟩
  rw [if_neg hlimit]
  by_cases hinsert : ¬ answers.insert = true
  · rw [if_pos hinsert]
    exact Or.inl ⟨nofun, rfl⟩
  rw [if_neg hinsert]
  cases htable : table jti with
  | none => exact Or.inr ⟨nofun, rfl⟩
  | some row =>
    dsimp only
    by_cases hselect : ¬ answers.select = true
    · rw [if_pos hselect]
      exact Or.inl ⟨nofun, rfl⟩
    rw [if_neg hselect]
    by_cases hlive : isLive dates now row = true
    · rw [if_pos hlive]
      exact Or.inl ⟨nofun, rfl⟩
    · rw [if_neg hlive, if_pos hupdate]
      apply Or.inr
      constructor
      · intro row' hrow'
        cases hrow'
        exact Bool.eq_false_iff.mpr hlive
      · rfl

theorem remembering {dates : Rfc3339} (hdates : dates.Honest) :
  (guard dates).Remembering (Remembers dates) Refreshes
  where
  recorded table request answers h haccepted := by
    have haccepted' := of_decide_eq_true haccepted
    obtain ⟨hrefused, -⟩ | ⟨-, heq⟩ := @checkAndInsert_cases dates table request.now
      request.lifetime request.token answers h.1 h.2
    · exact absurd haccepted' hrefused
    · change (checkAndInsert dates table request.now request.lifetime request.token answers).2 _ = _
      rw [heq]
      exact Function.update_self _ _ _
  kept table request answers jti deadline h hremembers hlt := by
    change (checkAndInsert dates table request.now request.lifetime request.token answers).2 _ = _
    obtain ⟨-, heq⟩ | ⟨hfree, heq⟩ := @checkAndInsert_cases dates table request.now
      request.lifetime request.token answers h.1 h.2
    · rw [heq]
      exact hremembers
    · have hne : jti ≠ request.token := by
        rintro rfl
        have hlive := hfree _ hremembers
        rw [isLive_format hdates hlt] at hlive
        cases hlive
      rw [heq]
      exact (Function.update_of_ne hne _ table).trans hremembers
  refused table request answers deadline hremembers hlt := by
    change decide ((checkAndInsert dates table request.now request.lifetime request.token
      answers).1 = .accepted) = false
    rw [Remembers] at hremembers
    simp only [checkAndInsert, hremembers, isLive_format hdates hlt, if_true]
    split_ifs <;> rfl

end Sql

/-! ### Single use -/

/-- A JTI that has been accepted is not accepted again within its lifetime: in memory, when
no call evicts an expired entry of a JTI whose record has not expired, and in the database,
when the lifetimes are in range and expired rows can be refreshed. -/
theorem checkAndInsert_singleUse (dates : Rfc3339) (hdates : dates.Honest) :
  (∀ (maxEntries : Nat) (calls : List (Request String × Unit)), Guard.Timely calls →
    MemoryJti.guard.Along MemoryJti.EvictsNoneLive (.new maxEntries) calls →
    Guard.SingleUse (MemoryJti.guard.trace (.new maxEntries) calls)) ∧
  ∀ (table : JtiTable) (calls : List (Request String × SqlAnswers)), Guard.Timely calls →
    (Sql.guard dates).Along Sql.Refreshes table calls →
    Guard.SingleUse ((Sql.guard dates).trace table calls)
  := by
  constructor
  · intro maxEntries calls htimely halong
    exact MemoryJti.remembering.singleUse halong htimely
  · intro table calls htimely halong
    exact (Sql.remembering hdates).singleUse halong htimely

/-- Dates that know one minute after the epoch, and no other time. -/
def sampleDates : Rfc3339 where
  format time := if time = 60 * 10 ^ 9 then "1970-01-01T00:01:00+00:00" else ""
  parse text := if text = "1970-01-01T00:01:00+00:00" then some (60 * 10 ^ 9) else none

theorem sampleDates_honest :
  sampleDates.Honest
  := by
  intro time time' h
  by_cases htime : time = 60 * 10 ^ 9
  · subst htime
    exact (Option.some.inj h).symm
  · have hformat : sampleDates.format time = "" := if_neg htime
    have hparse : sampleDates.parse "" = none := by decide
    rw [hformat, hparse] at h
    cases h

theorem checkAndInsert_singleUse_sample :
  Guard.SingleUse (MemoryJti.guard.trace (.new 100)
    [(⟨"proof", 0, 60 * 10 ^ 9⟩, ()), (⟨"proof", 10 ^ 9, 60 * 10 ^ 9⟩, ())]) ∧
  Guard.SingleUse ((Sql.guard sampleDates).trace (fun _ => none)
    [(⟨"proof", 0, 60 * 10 ^ 9⟩, ⟨true, true, true⟩), (⟨"proof", 10 ^ 9, 60 * 10 ^ 9⟩, ⟨true, true, true⟩)])
  := by
  obtain ⟨hmemory, hsql⟩ := checkAndInsert_singleUse sampleDates sampleDates_honest
  constructor
  · apply hmemory
    · simp [Guard.Timely]
    · refine ⟨fun _ => nofun, ?_, trivial⟩
      intro hfree
      exact absurd hfree (by decide)
  · apply hsql
    · simp [Guard.Timely]
    · exact ⟨⟨by decide, rfl⟩, ⟨by decide, rfl⟩, trivial⟩

/-- In memory a JTI that is admitted again after it has expired is forgotten at once, and
admitted a third time. -/
theorem memory_admits_again :
  ¬ ∀ (maxEntries : Nat) (calls : List (Request String × Unit)), Guard.Timely calls →
    Guard.SingleUse (MemoryJti.guard.trace (.new maxEntries) calls)
  := by
  intro hclaim
  have htimely : Guard.Timely
      [(⟨"proof", 0, 10⟩, ()), (⟨"proof", 11, 100⟩, ()), ((⟨"proof", 12, 100⟩ : Request String), ())] := by
    simp [Guard.Timely]
  have htrace := hclaim 100 _ htimely
  have hlast := (List.pairwise_cons.mp (List.pairwise_cons.mp htrace).2).1 _ List.mem_cons_self
  exact absurd (hlast (by decide) (by decide) rfl) (by decide)

end Atproto.Pds.JtiReplay
