import Atproto.Logic.Action

/-!
# Metered actions

A state carries a meter, and actions are charged for what they do.  A metered action changes
nothing but the meter, which it does not drive beyond a limit.  What it returns does not depend on
what others were charged before it, unless the meter is exhausted.
-/

namespace Logic

/-- A meter in a state, with a limit and the errors that say that it is exhausted. -/
structure Meter (ε σ : Type) where
  read : σ → Nat
  write : Nat → σ → σ
  limit : σ → Nat
  Exhausted : ε → Prop
  read_write : ∀ n s, read (write n s) = n
  write_write : ∀ n k s, write n (write k s) = write n s
  write_read : ∀ s, write (read s) s = s
  limit_write : ∀ n s, limit (write n s) = limit s

namespace Action

variable {ε σ α β : Type}

/-- An action, and a change of the state after it, whether it succeeds or fails. -/
def andFinally (m : Action ε σ α) (exit : σ → σ) : Action ε σ α := fun s =>
  let (result, s') := m s
  (result, exit s')

theorem bind_assoc {γ : Type} (m : Action ε σ α) (f : α → Action ε σ β) (g : β → Action ε σ γ) :
  (m >>= f) >>= g = m >>= fun a => f a >>= g
  := by
  funext s
  rw [bind_apply, bind_apply, bind_apply]
  cases m s with
  | mk result s' =>
    cases result with
    | ok a => rfl
    | error e => rfl

variable (meter : Meter ε σ)

/-- Charge one unit. -/
def charge (exhausted : σ → ε) : Action ε σ Unit := fun s =>
  if meter.limit s ≤ meter.read s then (.error (exhausted s), s)
  else (.ok (), meter.write (meter.read s + 1) s)

/-- The action failed since the meter was exhausted. -/
def RanOut (result : Except ε α × σ) : Prop := ∃ e, result.1 = .error e ∧ meter.Exhausted e

/-- From `s` the action changes nothing but the meter, which grows and stays within its limit.  Begun
with more on the meter it runs out or does the same. -/
structure Metered (m : Action ε σ α) (s : σ) : Prop where
  restores : (m s).2 = meter.write (meter.read (m s).2) s
  grows : meter.read s ≤ meter.read (m s).2
  bounded : meter.read s ≤ meter.limit s → meter.read (m s).2 ≤ meter.limit s
  uniform : ∀ extra, RanOut meter (m (meter.write (meter.read s + extra) s)) ∨
    m (meter.write (meter.read s + extra) s) =
      ((m s).1, meter.write (meter.read (m s).2 + extra) s)

variable {meter} {m : Action ε σ α} {s : σ}

/-- An action that does the same as another one, whatever is on the meter. -/
theorem Metered.congr {m' : Action ε σ α} (h : Metered meter m' s)
    (heq : ∀ n, m (meter.write n s) = m' (meter.write n s)) :
  Metered meter m s
  := by
  have hs : m s = m' s := by
    rw [← meter.write_read s]
    exact heq _
  refine ⟨?_, ?_, ?_, ?_⟩
  · rw [hs]
    exact h.restores
  · rw [hs]
    exact h.grows
  · rw [hs]
    exact h.bounded
  · intro extra
    rw [heq, hs]
    exact h.uniform extra

/-- An action that only reads the state, and not the meter. -/
theorem Metered.of_read {f : σ → Except ε α} (h : ∀ n, f (meter.write n s) = f s) :
  Metered meter (read f) s
  where
  restores := (meter.write_read s).symm
  grows := Nat.le_refl _
  bounded := id
  uniform extra := by
    right
    change (f (meter.write (meter.read s + extra) s), _) = (f s, _)
    rw [h]
    rfl

theorem Metered.ofExcept {x : Except ε α} :
  Metered meter (ofExcept x) s
  := of_read fun _ => rfl

theorem Metered.pure {a : α} :
  Metered meter (Pure.pure a) s
  := ofExcept (x := .ok a)

/-- Charging one unit. -/
theorem Metered.charge {exhausted : σ → ε} (h : ∀ s, meter.Exhausted (exhausted s)) :
  Metered meter (charge meter exhausted) s
  where
  restores := by
    rw [Action.charge]
    split_ifs
    · exact (meter.write_read s).symm
    · rw [meter.read_write]
  grows := by
    rw [Action.charge]
    split_ifs
    · exact Nat.le_refl _
    · rw [meter.read_write]
      exact Nat.le_succ _
  bounded := by
    intro hle
    rw [Action.charge]
    split_ifs with hfull
    · exact hle
    · rw [meter.read_write]
      omega
  uniform extra := by
    rw [Action.charge, Action.charge, meter.limit_write, meter.read_write]
    by_cases hfull : meter.limit s ≤ meter.read s + extra
    · left
      rw [if_pos hfull]
      exact ⟨_, rfl, h _⟩
    · right
      have hfree : ¬ meter.limit s ≤ meter.read s := by omega
      rw [if_neg hfull, if_neg hfree, meter.write_write, meter.read_write, Nat.add_right_comm]

/-- What runs out, runs out with whatever comes after it. -/
theorem RanOut.bind {f : α → Action ε σ β} (h : RanOut meter (m s)) :
  RanOut meter ((m >>= f) s)
  := by
  obtain ⟨e, hresult, hexhausted⟩ := h
  refine ⟨e, ?_, hexhausted⟩
  rw [bind_apply]
  cases hm : m s with
  | mk result s' =>
    rw [hm] at hresult
    cases hresult
    rfl

/-- One action after another. -/
theorem Metered.bind {f : α → Action ε σ β} (h : Metered meter m s)
    (hf : ∀ a n, Metered meter (f a) (meter.write n s)) :
  Metered meter (m >>= f) s
  := by
  obtain ⟨hrestores, hgrows, hbounded, huniform⟩ := h
  cases hm : m s with
  | mk result s' =>
    rw [hm] at hrestores hgrows hbounded huniform
    simp only at hrestores hgrows hbounded huniform
    cases result with
    | error e =>
      have hbind : (m >>= f) s = (.error e, s') := by rw [bind_apply, hm]
      refine ⟨?_, ?_, ?_, ?_⟩
      · rw [hbind]
        exact hrestores
      · rw [hbind]
        exact hgrows
      · rw [hbind]
        exact hbounded
      · intro extra
        rw [hbind]
        rcases huniform extra with hout | hsame
        · exact Or.inl hout.bind
        · right
          rw [bind_apply, hsame]
    | ok a =>
      have hbind : (m >>= f) s = f a s' := by rw [bind_apply, hm]
      have hwrite : ∀ n, meter.write n s' = meter.write n s := by
        intro n
        rw [hrestores, meter.write_write]
      have hlimit : meter.limit s' = meter.limit s := by rw [hrestores, meter.limit_write]
      have hnext : Metered meter (f a) s' := by
        rw [hrestores]
        exact hf a _
      refine ⟨?_, ?_, ?_, ?_⟩
      · rw [hbind, ← hwrite]
        exact hnext.restores
      · rw [hbind]
        exact Nat.le_trans hgrows hnext.grows
      · intro hle
        rw [hbind, ← hlimit]
        apply hnext.bounded
        rw [hlimit]
        exact hbounded hle
      · intro extra
        rw [hbind]
        rcases huniform extra with hout | hsame
        · exact Or.inl hout.bind
        · rw [bind_apply, hsame, ← hwrite, ← hwrite]
          exact hnext.uniform extra

/-- An action between a change of the state and another one that undoes it. -/
theorem Metered.bracket (enter exit : σ → σ) (h : Metered meter m (enter s))
    (hread : meter.read (enter s) = meter.read s) (hlimit : meter.limit (enter s) = meter.limit s)
    (henter : ∀ n, enter (meter.write n s) = meter.write n (enter s))
    (hexit : ∀ n, exit (meter.write n (enter s)) = meter.write n s) :
  Metered meter (modify enter >>= fun _ => m.andFinally exit) s
  := by
  have hrun : ∀ n, (modify enter >>= fun _ => m.andFinally exit) (meter.write n s) =
      ((m (meter.write n (enter s))).1, exit (m (meter.write n (enter s))).2) := by
    intro n
    rw [← henter]
    rfl
  have hat : (modify enter >>= fun _ => m.andFinally exit) s =
      ((m (enter s)).1, meter.write (meter.read (m (enter s)).2) s) := by
    rw [← hexit, ← h.restores]
    rfl
  refine ⟨?_, ?_, ?_, ?_⟩
  · rw [hat, meter.read_write]
  · rw [hat, meter.read_write, ← hread]
    exact h.grows
  · rw [hat, meter.read_write, ← hread, ← hlimit]
    exact h.bounded
  · intro extra
    rw [hrun, hat, meter.read_write]
    have huniform := h.uniform extra
    rw [hread] at huniform
    rcases huniform with ⟨e, hresult, hexhausted⟩ | hsame
    · left
      exact ⟨e, hresult, hexhausted⟩
    · right
      rw [hsame, hexit]

end Action

end Logic
