import Atproto.Logic.Machine

/-!
# Calls in flight

Calls share a state, and each call keeps a state of its own from one of its steps to the next.  The
steps of different calls come in any order, and the shared state may also be changed from outside.
An invariant has a part about the shared state and a part about each call.
-/

namespace Logic

/-- The shared state and the calls in flight, in the order in which they began. -/
structure Pool (Shared Call : Type) where
  shared : Shared
  calls : List Call

/-- What happens next: a call begins with a request, a call takes its next step, or the shared state
is changed from outside. -/
inductive Turn (Request Choice Event : Type) where
  | begin (request : Request)
  | advance (i : Nat) (choice : Choice)
  | outside (event : Event)

namespace Pool

variable {Shared Call Request Choice Event : Type} (start : Request → Call)
  (advance : Choice → Call → Shared → Call × Shared) (outside : Event → Shared → Shared)

/-- One turn. -/
def turn (pool : Pool Shared Call) : Turn Request Choice Event → Pool Shared Call
  | .begin request => ⟨pool.shared, pool.calls ++ [start request]⟩
  | .advance i choice =>
    match pool.calls[i]? with
    | none => pool
    | some call =>
      let (call, shared) := advance choice call pool.shared
      ⟨shared, pool.calls.set i call⟩
  | .outside event => ⟨outside event pool.shared, pool.calls⟩

/-- The shared state satisfies an invariant, and so does each call with it. -/
structure Holds (I : Shared → Prop) (J : Shared → Call → Prop) (pool : Pool Shared Call) :
    Prop where
  shared : I pool.shared
  calls : ∀ call ∈ pool.calls, J pool.shared call

variable {start advance outside} {I : Shared → Prop} {J : Shared → Call → Prop}
  {pool : Pool Shared Call}

theorem turn_advance_of_none {i : Nat} {choice : Choice} (hcall : pool.calls[i]? = none) :
  pool.turn start advance outside (.advance i choice) = pool
  := by
  rw [turn, hcall]

theorem turn_advance_of_some {i : Nat} {choice : Choice} {call : Call}
    (hcall : pool.calls[i]? = some call) :
  pool.turn start advance outside (.advance i choice) =
    ⟨(advance choice call pool.shared).2, pool.calls.set i (advance choice call pool.shared).1⟩
  := by
  rw [turn, hcall]

theorem Holds.turn_begin (h : Holds I J pool) {request : Request}
    (hcall : J pool.shared (start request)) :
  Holds I J (pool.turn start advance outside (.begin request))
  := by
  refine ⟨h.shared, ?_⟩
  intro other hmem
  rcases List.mem_append.mp hmem with hmem | hmem
  · apply h.calls other hmem
  · rw [List.mem_singleton.mp hmem]
    exact hcall

/-- A step of a call keeps the invariant when it keeps the part of the shared state and its own,
and the parts of the other calls are stable under it. -/
theorem Holds.turn_advance (h : Holds I J pool) {i : Nat} {choice : Choice}
    (hkeep : ∀ call, pool.calls[i]? = some call → J pool.shared call →
      I (advance choice call pool.shared).2 ∧
        J (advance choice call pool.shared).2 (advance choice call pool.shared).1 ∧
        ∀ other ∈ pool.calls, J pool.shared other → J (advance choice call pool.shared).2 other) :
  Holds I J (pool.turn start advance outside (.advance i choice))
  := by
  cases hcall : pool.calls[i]? with
  | none =>
    rw [turn_advance_of_none hcall]
    exact h
  | some call =>
    obtain ⟨hI, hown, hothers⟩ := hkeep call hcall (h.calls call (List.mem_of_getElem? hcall))
    rw [turn_advance_of_some hcall]
    refine ⟨hI, ?_⟩
    intro other hmem
    rcases List.mem_or_eq_of_mem_set hmem with hmem | rfl
    · exact hothers other hmem (h.calls other hmem)
    · exact hown

theorem Holds.turn_outside (h : Holds I J pool) {event : Event}
    (hkeep : I (outside event pool.shared) ∧
      ∀ call ∈ pool.calls, J pool.shared call → J (outside event pool.shared) call) :
  Holds I J (pool.turn start advance outside (.outside event))
  := by
  refine ⟨hkeep.1, ?_⟩
  intro call hmem
  exact hkeep.2 call hmem (h.calls call hmem)

end Pool

end Logic
