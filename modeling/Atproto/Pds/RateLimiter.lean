import Atproto.Logic.Machine
import Atproto.Logic.Window
import Atproto.Repo.Codec
import Mathlib.Data.Finmap

/-!
# The rate limiter

The limiter in memory keeps for each key the times of the requests that it has accepted, the oldest
first.  It forgets those that have left the window when the key is used again.  When there are too
many keys it forgets one of the others, the first in the order in which the map is iterated over.
Times are nanoseconds.
-/

namespace Atproto.Pds.RateLimiter

open Atproto.Dasl Atproto.Repo Logic

/-- The times of each key, and what the limiter is configured with. -/
structure MemoryLimiter where
  buckets : Finmap fun _ : Text => List Nat
  limit : Nat
  window : Nat
  maxKeys : Nat

/-- A call, with the order in which the map is iterated over at its end. -/
structure Call where
  key : Text
  now : Nat
  order : List Text
  deriving DecidableEq

/-- How a call ends. -/
inductive Outcome where
  | accepted (remaining : Nat)
  | rateLimited (retryAfter : Nat)
  | panicked
  deriving DecidableEq

/-- The call was accepted. -/
def Outcome.isAccepted : Outcome → Bool
  | .accepted _ => true
  | .rateLimited _ => false
  | .panicked => false

namespace MemoryLimiter

/-- A limiter that has seen no key. -/
def new (limit window maxKeys : Nat) : MemoryLimiter where
  buckets := ∅
  limit := limit
  window := window
  maxKeys := maxKeys

/-- The times of a key. -/
def bucket (state : MemoryLimiter) (key : Text) : List Nat := (state.buckets.lookup key).getD []

/-- Forget the times that have left the window, as far as they are at the front. -/
def trim (window now : Nat) (deque : List Nat) : List Nat :=
  deque.dropWhile fun t => t + window < now

/-- Forget one of the other keys when there are too many. -/
def prune (call : Call) (state : MemoryLimiter) : MemoryLimiter :=
  if state.maxKeys < state.buckets.keys.card then
    match call.order.find? fun other => other ≠ call.key with
    | none => state
    | some victim => { state with buckets := state.buckets.erase victim }
  else state

/-- The limiter with other times for a key. -/
def put (key : Text) (deque : List Nat) (state : MemoryLimiter) : MemoryLimiter :=
  { state with buckets := state.buckets.insert key deque }

/-- Record a request, if there are not too many in the window. -/
def tryAcquire (state : MemoryLimiter) (call : Call) : Outcome × MemoryLimiter :=
  let deque := trim state.window call.now (state.bucket call.key)
  if state.limit ≤ deque.length then
    match deque with
    | [] => (.panicked, state.put call.key deque)
    | oldest :: _ => (.rateLimited (oldest + state.window - call.now), state.put call.key deque)
  else
    (.accepted (state.limit - (deque.length + 1)),
      (state.put call.key (deque ++ [call.now])).prune call)

/-- The limiter after a call. -/
def step (state : MemoryLimiter) (call : Call) : MemoryLimiter := (state.tryAcquire call).2

/-- The calls of a run, each with how it ends. -/
def trace : MemoryLimiter → List Call → List (Call × Outcome)
  | _, [] => []
  | state, call :: calls => (call, (state.tryAcquire call).1) :: trace (state.step call) calls

/-- There is room for a call among the times of its key. -/
def HasRoom (state : MemoryLimiter) (call : Call) : Prop :=
  (trim state.window call.now (state.bucket call.key)).length < state.limit

/-- A call that is accepted when there are too many keys finds a key to forget. -/
def Forgets (state : MemoryLimiter) (call : Call) (victim : Text) : Prop :=
  state.HasRoom call ∧ state.maxKeys < (insert call.key state.buckets.keys).card ∧
    call.order.find? (fun other => other ≠ call.key) = some victim

/-- All times of a key that a call forgets have left the window. -/
def ForgetsNoneLive (state : MemoryLimiter) (call : Call) : Prop :=
  ∀ victim, state.Forgets call victim → ∀ t ∈ state.bucket victim, t + state.window < call.now

instance (state : MemoryLimiter) (call : Call) : Decidable (state.ForgetsNoneLive call) :=
  decidable_of_iff
    ((trim state.window call.now (state.bucket call.key)).length < state.limit →
      state.maxKeys < (insert call.key state.buckets.keys).card →
        ∀ victim ∈ call.order.find? fun other => other ≠ call.key,
          ∀ t ∈ state.bucket victim, t + state.window < call.now)
    ⟨fun h victim hvictim => h hvictim.1 hvictim.2.1 victim hvictim.2.2,
      fun h hroom hcard victim hvictim => h victim ⟨hroom, hcard, hvictim⟩⟩

/-! ### One call -/

variable {state : MemoryLimiter} {call : Call} {key : Text}

theorem bucket_put_self {deque : List Nat} :
  (state.put key deque).bucket key = deque
  := by
  rw [bucket, put, Finmap.lookup_insert, Option.getD_some]

theorem bucket_put_of_ne {other : Text} {deque : List Nat} (h : other ≠ key) :
  (state.put key deque).bucket other = state.bucket other
  := by
  rw [bucket, put, Finmap.lookup_insert_of_ne _ h, bucket]

theorem keys_put {deque : List Nat} :
  (state.put key deque).buckets.keys = insert key state.buckets.keys
  := by
  ext other
  rw [put, Finmap.mem_keys, Finmap.mem_insert, Finset.mem_insert, Finmap.mem_keys]

theorem config_prune :
  (state.prune call).limit = state.limit ∧ (state.prune call).window = state.window
  := by
  rw [prune]
  split_ifs
  · cases call.order.find? fun other => other ≠ call.key with
    | none => exact ⟨rfl, rfl⟩
    | some victim => exact ⟨rfl, rfl⟩
  · exact ⟨rfl, rfl⟩

/-- A key keeps its times or is forgotten, and then it is not the key of the call. -/
theorem bucket_prune (key : Text) :
  (state.prune call).bucket key = state.bucket key ∨
    state.maxKeys < state.buckets.keys.card ∧ key ≠ call.key ∧
      call.order.find? (fun other => other ≠ call.key) = some key ∧
      (state.prune call).bucket key = []
  := by
  rw [prune]
  split_ifs with hfull
  · cases hvictim : call.order.find? fun other => other ≠ call.key with
    | none => exact Or.inl rfl
    | some victim =>
      by_cases hkey : key = victim
      · right
        have hne := of_decide_eq_true
          (@List.find?_some _ (fun other => decide (other ≠ call.key)) _ _ hvictim)
        subst hkey
        refine ⟨hfull, hne, rfl, ?_⟩
        change (Finmap.lookup key (Finmap.erase key state.buckets)).getD [] = []
        rw [Finmap.lookup_erase, Option.getD_none]
      · left
        simp only [bucket, Finmap.lookup_erase_ne hkey]
  · exact Or.inl rfl

/-- How a call ends, from the times of its key. -/
def outcome (limit window now : Nat) (deque : List Nat) : Outcome :=
  if limit ≤ deque.length then
    match deque with
    | [] => .panicked
    | oldest :: _ => .rateLimited (oldest + window - now)
  else .accepted (limit - (deque.length + 1))

theorem isAccepted_outcome {limit window now : Nat} {deque : List Nat} :
  (outcome limit window now deque).isAccepted = decide (deque.length < limit)
  := by
  by_cases hfull : limit ≤ deque.length
  · rw [decide_eq_false (Nat.not_lt.mpr hfull)]
    simp only [outcome, hfull, if_true]
    cases deque with
    | nil => rfl
    | cons oldest deque => rfl
  · simp only [outcome, hfull, if_false]
    exact (decide_eq_true (Nat.lt_of_not_le hfull)).symm

/-- What a call does, in the case that it is accepted and in the case that it is not. -/
theorem tryAcquire_eq :
  state.tryAcquire call =
    (outcome state.limit state.window call.now
        (trim state.window call.now (state.bucket call.key)),
      if (trim state.window call.now (state.bucket call.key)).length < state.limit then
        (state.put call.key
          (trim state.window call.now (state.bucket call.key) ++ [call.now])).prune call
      else state.put call.key (trim state.window call.now (state.bucket call.key)))
  := by
  rw [tryAcquire]
  generalize trim state.window call.now (state.bucket call.key) = deque
  by_cases hfull : state.limit ≤ deque.length
  · simp only [outcome, hfull, Nat.not_lt.mpr hfull, if_true, if_false]
    cases deque with
    | nil => rfl
    | cons oldest deque => rfl
  · simp only [outcome, hfull, Nat.lt_of_not_le hfull, if_true, if_false]

theorem config_step :
  (state.step call).limit = state.limit ∧ (state.step call).window = state.window
  := by
  rw [step, tryAcquire_eq]
  split_ifs
  · exact config_prune
  · exact ⟨rfl, rfl⟩

/-- What a call does to its own key. -/
theorem bucket_step_self :
  (state.step call).bucket call.key =
    trim state.window call.now (state.bucket call.key) ++
      if (trim state.window call.now (state.bucket call.key)).length < state.limit then [call.now]
      else []
  := by
  rw [step, tryAcquire_eq]
  split_ifs
  · rcases @bucket_prune (state.put call.key _) call call.key with hkept | ⟨-, hne, -⟩
    · exact hkept.trans bucket_put_self
    · exact absurd rfl hne
  · exact bucket_put_self.trans (List.append_nil _).symm

/-- What a call does to another key. -/
theorem bucket_step_of_ne (h : key ≠ call.key) :
  (state.step call).bucket key = state.bucket key ∨
    state.Forgets call key ∧ (state.step call).bucket key = []
  := by
  rw [step, tryAcquire_eq]
  split_ifs with hroom
  · rcases @bucket_prune (state.put call.key _) call key with
      hkept | ⟨hcard, -, hvictim, hforgotten⟩
    · exact Or.inl (hkept.trans (bucket_put_of_ne h))
    · refine Or.inr ⟨⟨hroom, ?_, hvictim⟩, hforgotten⟩
      rwa [keys_put] at hcard
  · exact Or.inl (bucket_put_of_ne h)

end MemoryLimiter

/-! ### The times of a key and its history -/

open Window MemoryLimiter

/-- What is kept for a key stands for the times at which its calls were accepted, for all calls from
a time on. -/
structure Tracks (window since : Nat) (deque history : List Nat) : Prop where
  sorted : deque.Pairwise (· ≤ ·)
  le_since : ∀ t ∈ deque, t ≤ since
  live : ∀ now, since ≤ now →
    deque.filter (isLive window now) = history.filter (isLive window now)

namespace Tracks

variable {limit window since now : Nat} {deque history : List Nat}

theorem nil : Tracks window since [] [] where
  sorted := List.Pairwise.nil
  le_since := fun _ ht => absurd ht List.not_mem_nil
  live := fun _ _ => rfl

/-- In a sorted list the times that have left the window are at the front. -/
theorem trim_eq_filter (h : deque.Pairwise (· ≤ ·)) :
  trim window now deque = deque.filter (isLive window now)
  := by
  induction deque with
  | nil => rfl
  | cons t deque ih =>
    obtain ⟨hle, hsorted⟩ := List.pairwise_cons.mp h
    by_cases hlive : isLive window now t = true
    · have hdrop : ¬ decide (t + window < now) = true := by
        rw [isLive, decide_eq_true_eq] at hlive
        rw [decide_eq_true_eq]
        omega
      have hall : ∀ t' ∈ t :: deque, isLive window now t' = true := by
        intro t' ht'
        rw [isLive, decide_eq_true_eq] at hlive ⊢
        rcases List.mem_cons.mp ht' with rfl | ht'
        · exact hlive
        · have := hle t' ht'
          omega
      rw [trim, List.dropWhile_cons, if_neg hdrop, List.filter_eq_self.mpr hall]
    · have hdrop : decide (t + window < now) = true := by
        rw [isLive, decide_eq_true_eq] at hlive
        rw [decide_eq_true_eq]
        omega
      rw [trim, List.dropWhile_cons, if_pos hdrop, List.filter_cons_of_neg hlive]
      exact ih hsorted

theorem trim_eq (h : Tracks window since deque history) (hnow : since ≤ now) :
  trim window now deque = history.filter (isLive window now)
  := (trim_eq_filter h.sorted).trans (h.live now hnow)

theorem later (h : Tracks window since deque history) (hnow : since ≤ now) :
  Tracks window now deque history where
  sorted := h.sorted
  le_since := fun t ht => (h.le_since t ht).trans hnow
  live := fun now' hnow' => h.live now' (hnow.trans hnow')

/-- A time that is live later is live now. -/
theorem filter_isLive_filter {now' : Nat} (h : now ≤ now') (times : List Nat) :
  (times.filter (isLive window now)).filter (isLive window now') = times.filter (isLive window now')
  := by
  rw [List.filter_filter]
  apply List.filter_congr
  intro t _
  by_cases hlive : isLive window now' t = true
  · rw [hlive, Bool.true_and]
    rw [isLive, decide_eq_true_eq] at hlive ⊢
    omega
  · rw [Bool.eq_false_iff.mpr hlive, Bool.false_and]

/-- A call of the key. -/
theorem call (h : Tracks window since deque history) (hnow : since ≤ now) :
  Tracks window now
    (trim window now deque ++ if (trim window now deque).length < limit then [now] else [])
    (record limit window history now)
  := by
  have hadmits : admits limit window history now = decide ((trim window now deque).length < limit) := by
    rw [admits, h.trim_eq hnow]
  rw [record_eq, hadmits]
  have hle : ∀ t ∈ trim window now deque, t ≤ now := by
    intro t ht
    rw [trim_eq_filter h.sorted] at ht
    exact (h.le_since t (List.mem_of_mem_filter ht)).trans hnow
  have hsorted : (trim window now deque).Pairwise (· ≤ ·) := by
    rw [trim_eq_filter h.sorted]
    exact h.sorted.filter _
  have hlive : ∀ now', now ≤ now' →
      (trim window now deque).filter (isLive window now') =
        history.filter (isLive window now') := by
    intro now' hnow'
    rw [h.trim_eq hnow, filter_isLive_filter hnow']
  by_cases hroom : (trim window now deque).length < limit
  · rw [if_pos hroom, if_pos (decide_eq_true hroom)]
    refine ⟨?_, ?_, ?_⟩
    · apply List.pairwise_append.mpr
      refine ⟨hsorted, List.pairwise_singleton _ _, ?_⟩
      intro t ht t' ht'
      rw [List.mem_singleton.mp ht']
      exact hle t ht
    · intro t ht
      rcases List.mem_append.mp ht with ht | ht
      · exact hle t ht
      · exact (List.mem_singleton.mp ht).le
    · intro now' hnow'
      rw [List.filter_append, List.filter_append, hlive now' hnow']
  · rw [if_neg hroom, if_neg (by rwa [decide_eq_true_eq]), List.append_nil, List.append_nil]
    exact ⟨hsorted, hle, hlive⟩

/-- Times that have left the window can be forgotten. -/
theorem forget (h : Tracks window since deque history) (hnow : since ≤ now)
    (hexpired : ∀ t ∈ deque, t + window < now) :
  Tracks window now [] history where
  sorted := List.Pairwise.nil
  le_since := fun _ ht => absurd ht List.not_mem_nil
  live := by
    intro now' hnow'
    rw [← h.live now' (hnow.trans hnow'), List.filter_nil]
    apply Eq.symm
    apply List.filter_eq_nil_iff.mpr
    intro t ht
    have := hexpired t ht
    rw [isLive, decide_eq_true_eq]
    omega

end Tracks

/-! ### Runs -/

section Runs

variable {state state' : MemoryLimiter} {key : Text} {calls : List Call} {since : Nat}
  {history : List Nat}

/-- The calls for a key. -/
def isFor (key : Text) (call : Call) : Bool := call.key = key

/-- The times at which calls for a key were accepted. -/
def acceptedTimes (key : Text) (trace : List (Call × Outcome)) : List Nat :=
  (trace.filter fun entry => isFor key entry.1 && entry.2.isAccepted).map fun entry => entry.1.now

/-- The key of a call and its times after the call. -/
theorem tracks_step {call : Call} (hnow : since ≤ call.now)
    (h : Tracks state.window since (state.bucket call.key) history) :
  Tracks (state.step call).window call.now ((state.step call).bucket call.key)
    (record state.limit state.window history call.now)
  := by
  rw [config_step.2, bucket_step_self]
  exact h.call hnow

/-- Another key and its times after a call. -/
theorem tracks_step_of_ne {call : Call} (hne : key ≠ call.key) (hnow : since ≤ call.now)
    (hforgets : state.ForgetsNoneLive call)
    (h : Tracks state.window since (state.bucket key) history) :
  Tracks (state.step call).window call.now ((state.step call).bucket key) history
  := by
  rw [config_step.2]
  rcases bucket_step_of_ne hne with hkept | ⟨hvictim, hforgotten⟩
  · rw [hkept]
    exact h.later hnow
  · rw [hforgotten]
    exact h.forget hnow (hforgets key hvictim)

/-- Whether the calls for one key are accepted is decided by the window before them. -/
theorem trace_of_isFor (htimely : calls.Pairwise fun a b => a.now ≤ b.now)
    (hsince : ∀ call ∈ calls, since ≤ call.now) (hkey : ∀ call ∈ calls, call.key = key)
    (h : Tracks state.window since (state.bucket key) history) :
  (state.trace calls).map (fun entry => (entry.1, entry.2.isAccepted)) =
    Window.trace state.limit state.window Call.now history calls
  := by
  induction calls generalizing state since history with
  | nil => rfl
  | cons call calls ih =>
    obtain ⟨hle, htimely⟩ := List.pairwise_cons.mp htimely
    have hnow := hsince call List.mem_cons_self
    have hself := hkey call List.mem_cons_self
    subst hself
    have hrest := ih htimely hle (fun other hother => hkey other (List.mem_cons_of_mem _ hother))
      (tracks_step hnow h)
    rw [config_step.1, config_step.2] at hrest
    rw [MemoryLimiter.trace, Window.trace, List.map_cons, hrest, tryAcquire_eq, isAccepted_outcome,
      admits, h.trim_eq hnow]

/-- The calls for a key end as they end without the calls for other keys. -/
theorem filter_trace (htimely : calls.Pairwise fun a b => a.now ≤ b.now)
    (hsince : ∀ call ∈ calls, since ≤ call.now)
    (hforgets : Machine.Along step ForgetsNoneLive state calls)
    (hlimit : state'.limit = state.limit) (hwindow : state'.window = state.window)
    (h : Tracks state.window since (state.bucket key) history)
    (h' : Tracks state'.window since (state'.bucket key) history) :
  (state.trace calls).filter (fun entry => isFor key entry.1) =
    state'.trace (calls.filter (isFor key))
  := by
  induction calls generalizing state state' since history with
  | nil => rfl
  | cons call calls ih =>
    obtain ⟨hle, htimely⟩ := List.pairwise_cons.mp htimely
    obtain ⟨hnone, hforgets⟩ := hforgets
    have hnow := hsince call List.mem_cons_self
    rw [MemoryLimiter.trace]
    by_cases hkey : call.key = key
    · have hfor : isFor key call = true := decide_eq_true hkey
      subst hkey
      have hrest := ih htimely hle hforgets
        (config_step.1.trans (hlimit.trans config_step.1.symm))
        (config_step.2.trans (hwindow.trans config_step.2.symm)) (tracks_step hnow h)
        (by
          have hstep := tracks_step hnow h'
          rwa [hlimit, hwindow] at hstep)
      rw [List.filter_cons, if_pos hfor, List.filter_cons, if_pos hfor, MemoryLimiter.trace, hrest,
        tryAcquire_eq, tryAcquire_eq, h.trim_eq hnow, h'.trim_eq hnow, hlimit, hwindow]
    · have hfor : ¬ isFor key call = true := by rwa [isFor, decide_eq_true_eq]
      rw [List.filter_cons, if_neg hfor, List.filter_cons, if_neg hfor]
      exact ih htimely hle hforgets (hlimit.trans config_step.1.symm)
        (hwindow.trans config_step.2.symm)
        (tracks_step_of_ne (fun heq => hkey heq.symm) hnow hnone h) (h'.later hnow)

/-- The accepted calls for a key are those that the window of the key admits. -/
theorem acceptedTimes_eq (trace : List (Call × Outcome)) :
  acceptedTimes key trace =
    admitted Call.now ((trace.filter fun entry => isFor key entry.1).map fun entry =>
      (entry.1, entry.2.isAccepted))
  := by
  induction trace with
  | nil => rfl
  | cons entry trace ih =>
    rw [acceptedTimes, List.filter_cons, List.filter_cons]
    rw [acceptedTimes] at ih
    cases hfor : isFor key entry.1 with
    | false => exact ih
    | true =>
      rw [Bool.true_and, if_pos rfl, List.map_cons, admitted_cons, ← ih]
      cases entry.2.isAccepted with
      | false => rfl
      | true => rfl

/-- While no call forgets times that are still in the window, no window has more than the limit of
accepted calls for a key, a call is not accepted only when that many calls for its key were accepted
in the window before it, and the calls for other keys do not change how a call ends. -/
theorem limit_of_forgetsNoneLive {limit window maxKeys : Nat} {calls : List Call}
    (htimely : calls.Pairwise fun a b => a.now ≤ b.now)
    (hforgets : Machine.Along step ForgetsNoneLive (new limit window maxKeys) calls) (key : Text) :
  (∀ start, ((acceptedTimes key ((new limit window maxKeys).trace calls)).filter
      (isWithin window start)).length ≤ limit) ∧
    (∀ before call outcome after,
      (new limit window maxKeys).trace calls = before ++ (call, outcome) :: after →
        call.key = key → outcome.isAccepted = false →
          limit ≤ ((acceptedTimes key before).filter (isLive window call.now)).length) ∧
    ((new limit window maxKeys).trace calls).filter (fun entry => isFor key entry.1) =
      (new limit window maxKeys).trace (calls.filter (isFor key))
  := by
  have hnil : Tracks window 0 ((new limit window maxKeys).bucket key) [] := Tracks.nil
  have halone := filter_trace htimely (fun _ _ => Nat.zero_le _) hforgets rfl rfl hnil hnil
  have hwindow : (((new limit window maxKeys).trace calls).filter fun entry =>
      isFor key entry.1).map (fun entry => (entry.1, entry.2.isAccepted)) =
      Window.trace limit window Call.now [] (calls.filter (isFor key)) := by
    rw [halone]
    apply trace_of_isFor (htimely.filter _) (fun _ _ => Nat.zero_le _) _ hnil
    intro call hcall
    exact of_decide_eq_true (List.mem_filter.mp hcall).2
  refine ⟨?_, ?_, halone⟩
  · intro start
    rw [acceptedTimes_eq, hwindow]
    exact length_within_le start
  · intro before call outcome after heq hkey hrefused
    rw [heq, List.filter_append, List.filter_cons, if_pos (by exact decide_eq_true hkey),
      List.map_append, List.map_cons, hrefused] at hwindow
    have hle := le_length_of_refused hwindow.symm
    rwa [List.nil_append, ← acceptedTimes_eq] at hle

end Runs

/-- Clients that log in, one of them twice, where the third one makes the limiter forget the second
one, whose time is out of the window. -/
def quietCalls : List Call :=
  let order := [textOf "b", textOf "a", textOf "c"]
  [⟨textOf "a", 0, order⟩, ⟨textOf "a", 5, order⟩, ⟨textOf "b", 6, order⟩, ⟨textOf "c", 20, order⟩,
    ⟨textOf "a", 31, order⟩]

/-- The client that logs in twice is refused the second time, after the accepted call in the window,
and it is answered as it would be without the other ones. -/
theorem limit_of_forgetsNoneLive_quiet :
  ((new 1 10 2).trace quietCalls).map Prod.snd =
    [.accepted 0, .rateLimited 5, .accepted 0, .accepted 0, .accepted 0] ∧
  ((acceptedTimes (textOf "a") ((new 1 10 2).trace quietCalls)).filter (isWithin 10 0)).length ≤ 1 ∧
  1 ≤ ((acceptedTimes (textOf "a") (((new 1 10 2).trace quietCalls).take 1)).filter
    (isLive 10 5)).length ∧
  ((new 1 10 2).trace quietCalls).filter (fun entry => isFor (textOf "a") entry.1) =
    (new 1 10 2).trace (quietCalls.filter (isFor (textOf "a")))
  := by
  have houtcomes : ((new 1 10 2).trace quietCalls).map Prod.snd =
      [.accepted 0, .rateLimited 5, .accepted 0, .accepted 0, .accepted 0] := by decide +kernel
  obtain ⟨hlimit, hrefused, halone⟩ := @limit_of_forgetsNoneLive 1 10 2 quietCalls
    (by decide +kernel) (by decide +kernel) (textOf "a")
  refine ⟨houtcomes, hlimit 0, ?_, halone⟩
  exact hrefused _ ⟨textOf "a", 5, [textOf "b", textOf "a", textOf "c"]⟩ (.rateLimited 5) _ rfl rfl
    rfl

/-- A client that logs in twice, where another one between makes the limiter forget it, although the
limiter still has the times of a third one that are out of the window. -/
def busyCalls : List Call :=
  let order := [textOf "b", textOf "a", textOf "c"]
  [⟨textOf "a", 0, order⟩, ⟨textOf "b", 100, order⟩, ⟨textOf "c", 101, order⟩,
    ⟨textOf "b", 102, order⟩]

/-- With room for two keys, and at most two keys in every window, a key is accepted twice in a window
with a limit of one, and it is refused the second time when the other keys are not used. -/
theorem limit_broken :
  (busyCalls.Pairwise fun a b => a.now ≤ b.now) ∧
    (∀ start, ((busyCalls.filter fun call => isWithin 10 start call.now).map
      Call.key).toFinset.card ≤ 2) ∧
    ((acceptedTimes (textOf "b") ((new 1 10 2).trace busyCalls)).filter
      (isWithin 10 100)).length = 2 ∧
    ((new 1 10 2).trace busyCalls).filter (fun entry => isFor (textOf "b") entry.1) ≠
      (new 1 10 2).trace (busyCalls.filter (isFor (textOf "b")))
  := by
  refine ⟨by decide +kernel, ?_, by decide +kernel, by decide +kernel⟩
  intro start
  by_cases hstart : start = 0
  · subst hstart
    decide +kernel
  · have hfirst : ¬ isWithin 10 start 0 = true := by
      rw [isWithin, Bool.and_eq_true, decide_eq_true_eq]
      omega
    have hsubset : ((busyCalls.filter fun call => isWithin 10 start call.now).map
        Call.key).toFinset ⊆ (busyCalls.tail.map Call.key).toFinset := by
      rw [busyCalls, List.filter_cons, if_neg hfirst, List.tail_cons]
      intro key hkey
      rw [List.mem_toFinset] at hkey ⊢
      exact List.map_subset _ (List.filter_subset_self _) hkey
    have hcard : (busyCalls.tail.map Call.key).toFinset.card ≤ 2 := by decide +kernel
    exact (Finset.card_le_card hsubset).trans hcard

end Atproto.Pds.RateLimiter
