import Mathlib.Data.List.Pairwise
import Mathlib.Tactic.Use

/-!
# Guards that admit a token once

A guard decides requests one after another.  Each request carries a token, the time it is
made at and a lifetime, and after a request has been admitted its token must not be
admitted again within the lifetime.  This follows from a relation saying that a state
remembers a token until a time, given what one step does to it.
-/

namespace Logic

/-- A request to admit a token. -/
structure Request (Token : Type) where
  token : Token
  now : Nat
  lifetime : Nat

/-- A guard with states `State`, whose steps also depend on answers of its environment. -/
structure Guard (Token State Answer : Type) where
  step : State → Request Token → Answer → Bool × State

namespace Guard

variable {Token State Answer : Type} (guard : Guard Token State Answer)

/-- The requests of a run, each with the decision on it. -/
def trace : State → List (Request Token × Answer) → List (Request Token × Bool)
  | _, [] => []
  | state, (request, answer) :: calls =>
    (request, (guard.step state request answer).1) ::
      trace (guard.step state request answer).2 calls

/-- Every step of a run satisfies a condition on the state before it and on its input. -/
def Along (P : State → Request Token → Answer → Prop) :
    State → List (Request Token × Answer) → Prop
  | _, [] => True
  | state, (request, answer) :: calls =>
    P state request answer ∧ Along P (guard.step state request answer).2 calls

/-- The clock never goes back during a run. -/
def Timely (calls : List (Request Token × Answer)) : Prop :=
  calls.Pairwise fun a b => a.1.now ≤ b.1.now

/-- After a token has been admitted it is not admitted again within its lifetime. -/
def SingleUse (trace : List (Request Token × Bool)) : Prop :=
  trace.Pairwise fun a b => a.2 = true → b.2 = true → a.1.token = b.1.token →
    a.1.now + a.1.lifetime ≤ b.1.now

variable {guard}

/-- The times of a trace are those of the run. -/
theorem now_le_of_mem {state : State} {calls : List (Request Token × Answer)} {now : Nat}
    (h : ∀ call ∈ calls, now ≤ call.1.now) {entry : Request Token × Bool}
    (hentry : entry ∈ guard.trace state calls) :
  now ≤ entry.1.now
  := by
  induction calls generalizing state with
  | nil => cases hentry
  | cons call calls ih =>
    obtain rfl | hentry := List.mem_cons.mp hentry
    · exact h call List.mem_cons_self
    · apply ih _ hentry
      exact fun other hother => h other (List.mem_cons_of_mem call hother)

variable (guard)

/-- What one step has to do about the tokens that the states remember. -/
structure Remembering (Remembers : State → Token → Nat → Prop)
    (P : State → Request Token → Answer → Prop) : Prop where
  recorded : ∀ state request answer, P state request answer →
    (guard.step state request answer).1 = true →
    Remembers (guard.step state request answer).2 request.token (request.now + request.lifetime)
  kept : ∀ state request answer token deadline, P state request answer →
    Remembers state token deadline → request.now < deadline →
    Remembers (guard.step state request answer).2 token deadline
  refused : ∀ state request answer deadline, Remembers state request.token deadline →
    request.now < deadline → (guard.step state request answer).1 = false

namespace Remembering

variable {guard} {Remembers : State → Token → Nat → Prop}
  {P : State → Request Token → Answer → Prop} {state : State}
  {calls : List (Request Token × Answer)}

/-- What a state remembers is not admitted before the deadline in the rest of a run. -/
theorem le_of_admitted (h : guard.Remembering Remembers P) (halong : guard.Along P state calls)
    (htimely : Timely calls) {token : Token} {deadline : Nat}
    (hremembers : Remembers state token deadline) :
  ∀ entry ∈ guard.trace state calls, entry.2 = true → entry.1.token = token →
    deadline ≤ entry.1.now
  := by
  induction calls generalizing state with
  | nil => nofun
  | cons call calls ih =>
    obtain ⟨request, answer⟩ := call
    obtain ⟨hstep, hrest⟩ := halong
    obtain ⟨hlater, htimely⟩ := List.pairwise_cons.mp htimely
    intro entry hentry hadmitted htoken
    obtain hlt | hle := Nat.lt_or_ge request.now deadline
    · obtain rfl | hentry := List.mem_cons.mp hentry
      · subst htoken
        rw [h.refused state request answer deadline hremembers hlt] at hadmitted
        cases hadmitted
      · have hkept := h.kept state request answer token deadline hstep hremembers hlt
        exact ih hrest htimely hkept entry hentry hadmitted htoken
    · obtain rfl | hentry := List.mem_cons.mp hentry
      · exact hle
      · exact Nat.le_trans hle (now_le_of_mem hlater hentry)

/-- A guard that remembers what it has admitted admits it once. -/
theorem singleUse (h : guard.Remembering Remembers P) (halong : guard.Along P state calls)
    (htimely : Timely calls) :
  SingleUse (guard.trace state calls)
  := by
  induction calls generalizing state with
  | nil => exact List.Pairwise.nil
  | cons call calls ih =>
    obtain ⟨request, answer⟩ := call
    obtain ⟨hstep, hrest⟩ := halong
    obtain ⟨-, htail⟩ := List.pairwise_cons.mp htimely
    apply List.Pairwise.cons _ (ih hrest htail)
    intro entry hentry hadmitted hadmitted' htoken
    have hremembers := h.recorded state request answer hstep hadmitted
    exact h.le_of_admitted hrest htail hremembers entry hentry hadmitted' htoken.symm

end Remembering

end Guard

end Logic
