import Atproto.Logic.Action
import Mathlib.Tactic.SplitIfs

/-!
# Checks

A value is checked step by step, and the first check that fails decides.
-/

namespace Logic

variable {ε α β : Type} {p : Prop} [Decidable p] {error : ε}

/-- Fail under a condition. -/
def failIf (p : Prop) [Decidable p] (error : ε) : Except ε Unit :=
  if p then .error error else .ok ()

theorem failIf_eq_ok {u : Unit} :
  failIf p error = .ok u ↔ ¬ p
  := by
  rw [failIf]
  split_ifs with h
  · simp only [h, not_true]
  · simp only [h, not_false_eq_true]

theorem failIf_bind_eq_ok {f : Unit → Except ε β} {b : β} :
  (failIf p error >>= f) = .ok b ↔ ¬ p ∧ f () = .ok b
  := by
  rw [bind_eq_ok]
  constructor
  · rintro ⟨u, hcheck, h⟩
    exact ⟨failIf_eq_ok.mp hcheck, h⟩
  · rintro ⟨hp, h⟩
    exact ⟨(), failIf_eq_ok.mpr hp, h⟩

/-- Take what is there, or fail. -/
def orFail (error : ε) : Option α → Except ε α
  | none => .error error
  | some a => .ok a

theorem orFail_eq_ok {x : Option α} {a : α} :
  orFail error x = .ok a ↔ x = some a
  := by
  cases x with
  | none => simp only [orFail, reduceCtorEq]
  | some b => simp only [orFail, Except.ok.injEq, Option.some.injEq]

end Logic
