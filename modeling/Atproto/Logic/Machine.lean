/-!
# Machines

A machine takes steps on inputs.  A condition holds along a run when every step of the run
meets it, in the state before the step.
-/

namespace Logic.Machine

variable {State Input : Type} (step : State → Input → State)

/-- The state after a run. -/
def run (state : State) (inputs : List Input) : State := inputs.foldl step state

/-- Every step of a run satisfies a condition on the state before it and on its input. -/
def Along (P : State → Input → Prop) : State → List Input → Prop
  | _, [] => True
  | state, input :: inputs => P state input ∧ Along P (step state input) inputs

variable {step} {P Q : State → Input → Prop} {Inv : State → Prop} {state : State}
  {inputs : List Input}

instance [∀ state input, Decidable (P state input)] :
    ∀ (state : State) (inputs : List Input), Decidable (Along step P state inputs)
  | _, [] => inferInstanceAs (Decidable True)
  | state, input :: inputs =>
    let _ := instDecidableAlong (step state input) inputs
    inferInstanceAs (Decidable (P state input ∧ Along step P (step state input) inputs))

/-- Two conditions that hold along a run hold there together. -/
theorem along_and (hP : Along step P state inputs) (hQ : Along step Q state inputs) :
  Along step (fun state input => P state input ∧ Q state input) state inputs
  := by
  induction inputs generalizing state with
  | nil => trivial
  | cons input inputs ih => exact ⟨⟨hP.1, hQ.1⟩, ih hP.2 hQ.2⟩

/-- Two conditions hold along the same runs when they agree wherever an invariant holds that
the steps keep. -/
theorem along_congr (hPQ : ∀ state input, Inv state → (P state input ↔ Q state input))
    (hkeep : ∀ state input, Inv state → Q state input → Inv (step state input))
    (h : Inv state) :
  Along step P state inputs ↔ Along step Q state inputs
  := by
  induction inputs generalizing state with
  | nil => exact Iff.rfl
  | cons input inputs ih =>
    constructor
    · rintro ⟨hstep, hrest⟩
      have hq := (hPQ state input h).mp hstep
      exact ⟨hq, (ih (hkeep state input h hq)).mp hrest⟩
    · rintro ⟨hstep, hrest⟩
      exact ⟨(hPQ state input h).mpr hstep, (ih (hkeep state input h hstep)).mpr hrest⟩

/-- A condition follows from another along a run whose steps keep an invariant. -/
theorem along_imp (hPQ : ∀ state input, Inv state → P state input → Q state input)
    (hkeep : ∀ state input, Inv state → P state input → Inv (step state input))
    (h : Inv state) (halong : Along step P state inputs) :
  Along step Q state inputs
  := by
  induction inputs generalizing state with
  | nil => trivial
  | cons input inputs ih =>
    obtain ⟨hstep, hrest⟩ := halong
    exact ⟨hPQ state input h hstep, ih (hkeep state input h hstep) hrest⟩

/-- A run whose steps keep an invariant ends in a state that satisfies it. -/
theorem invariant_run (hkeep : ∀ state input, Inv state → P state input → Inv (step state input))
    (halong : Along step P state inputs) (h : Inv state) :
  Inv (run step state inputs)
  := by
  induction inputs generalizing state with
  | nil => exact h
  | cons input inputs ih => exact ih halong.2 (hkeep state input h halong.1)

end Logic.Machine
