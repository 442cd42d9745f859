import Mathlib.Order.Basic
import Mathlib.Tactic.Use

/-!
# Fallible actions on a growing state

An action reads and writes a state and may fail; the state it leaves behind is kept when
it fails.  The states are ordered and actions only let them grow.  `Meets m s post excuse`
says that the action `m`, run from `s`, either returns a result that satisfies `post` or
fails, and that it fails only with the excuse.
-/

namespace Logic

/-- A bind of two results that succeeds. -/
theorem bind_eq_ok {ε α β : Type} {x : Except ε α} {f : α → Except ε β} {b : β} :
  (x >>= f) = .ok b ↔ ∃ a, x = .ok a ∧ f a = .ok b
  := by
  cases x with
  | error e =>
    constructor
    · nofun
    · rintro ⟨a, ha, -⟩
      cases ha
  | ok a =>
    constructor
    · intro h
      exact ⟨a, rfl, h⟩
    · rintro ⟨a', ha, h⟩
      cases ha
      exact h

/-- A bind whose first result is known. -/
theorem bind_congr_ok {ε α β : Type} {x : Except ε α} {f : α → Except ε β} {a : α}
    {y : Except ε β} (h : x = .ok a) (hf : f a = y) :
  (x >>= f) = y
  := by
  subst h
  exact hf

/-- A bind of two results that fails. -/
theorem bind_eq_error {ε α β : Type} {x : Except ε α} {f : α → Except ε β} {e : ε} :
  (x >>= f) = .error e ↔ x = .error e ∨ ∃ a, x = .ok a ∧ f a = .error e
  := by
  cases x with
  | error e' =>
    constructor
    · intro h
      cases h
      exact .inl rfl
    · rintro (⟨⟨⟩⟩ | ⟨a, ha, -⟩)
      · rfl
      · cases ha
  | ok a =>
    constructor
    · intro h
      exact .inr ⟨a, rfl, h⟩
    · rintro (h | ⟨a', ha, h⟩)
      · cases h
      · cases ha
        exact h

theorem toOption_eq_some {ε α : Type} {x : Except ε α} {a : α} :
  x.toOption = some a ↔ x = .ok a
  := by
  cases x with
  | error e => exact ⟨nofun, nofun⟩
  | ok b =>
    exact ⟨fun h => congrArg Except.ok (Option.some.inj h), fun h => congrArg some (Except.ok.inj h)⟩

theorem exists_eq_ok {ε α : Type} {x : Except ε α} (h : x.toOption.isSome = true) :
  ∃ a, x = .ok a
  := by
  obtain ⟨a, ha⟩ := Option.isSome_iff_exists.mp h
  exact ⟨a, toOption_eq_some.mp ha⟩

/-- A result that succeeds under a condition that holds. -/
theorem eq_ok_iff_of_ok {ε α : Type} {x : Except ε α} {a b : α} {p : Prop} (hx : x = .ok a)
    (hp : p) :
  x = .ok b ↔ p ∧ b = a
  := by
  rw [hx, Except.ok.injEq, and_iff_right hp]
  exact eq_comm

/-- A result that fails as a condition does. -/
theorem eq_ok_iff_of_error {ε α : Type} {x : Except ε α} {e : ε} {b : α} {p q : Prop}
    (hx : x = .error e) (hp : ¬ p) :
  x = .ok b ↔ p ∧ q
  := by
  rw [hx]
  constructor
  · nofun
  · rintro ⟨h, -⟩
    exact absurd h hp

theorem mapError_eq_ok {ε ε' α : Type} {x : Except ε α} {f : ε → ε'} {a : α} :
  x.mapError f = .ok a ↔ x = .ok a
  := by
  cases x with
  | error e =>
    constructor
    · nofun
    · nofun
  | ok b =>
    constructor
    · intro h
      cases h
      rfl
    · intro h
      cases h
      rfl

theorem isOk_iff {ε : Type} {x : Except ε Unit} :
  x.isOk = true ↔ x = .ok ()
  := by
  cases x with
  | error e =>
    constructor
    · nofun
    · nofun
  | ok u =>
    constructor
    · intro _
      rfl
    · intro _
      rfl

/-- What a map over a list that succeeds returns. -/
theorem mapM_eq_ok_mem {ε α β : Type} {f : α → Except ε β} {xs : List α} {ys : List β}
    (h : xs.mapM f = .ok ys) {y : β} (hy : y ∈ ys) :
  ∃ x ∈ xs, f x = .ok y
  := by
  induction xs generalizing ys with
  | nil =>
    cases h
    cases hy
  | cons x xs ih =>
    rw [List.mapM_cons] at h
    obtain ⟨z, hz, hrest⟩ := bind_eq_ok.mp h
    obtain ⟨zs, hzs, heq⟩ := bind_eq_ok.mp hrest
    cases heq
    obtain rfl | hmem := List.mem_cons.mp hy
    · exact ⟨x, List.mem_cons_self, hz⟩
    · obtain ⟨x', hx', hfx⟩ := ih hzs hmem
      exact ⟨x', List.mem_cons_of_mem x hx', hfx⟩

/-- An action with errors `ε` on states `σ`: an outcome and the state after it. -/
def Action (ε σ α : Type) : Type := σ → Except ε α × σ

namespace Action

variable {ε σ α β : Type}

instance : Monad (Action ε σ) where
  pure a := fun s => (.ok a, s)
  bind m f := fun s =>
    match m s with
    | (.ok a, s') => f a s'
    | (.error e, s') => (.error e, s')

/-- Fail. -/
def throw (e : ε) : Action ε σ α := fun s => (.error e, s)

/-- A result that does not depend on the state. -/
def ofExcept (x : Except ε α) : Action ε σ α := fun s => (x, s)

/-- A result read off the state. -/
def read (f : σ → Except ε α) : Action ε σ α := fun s => (f s, s)

/-- Change the state. -/
def modify (f : σ → σ) : Action ε σ Unit := fun s => (.ok (), f s)

theorem bind_apply (m : Action ε σ α) (f : α → Action ε σ β) (s : σ) :
  (m >>= f) s =
    match m s with
    | (.ok a, s') => f a s'
    | (.error e, s') => (.error e, s')
  := rfl

/-- A bind of two actions that succeeds. -/
theorem bind_eq_ok {m : Action ε σ α} {f : α → Action ε σ β} {s s'' : σ} {b : β} :
  (m >>= f) s = (.ok b, s'') ↔ ∃ a s', m s = (.ok a, s') ∧ f a s' = (.ok b, s'')
  := by
  rw [bind_apply]
  constructor
  · intro h
    cases hm : m s with
    | mk result s' =>
      rw [hm] at h
      cases result with
      | ok a => exact ⟨a, s', rfl, h⟩
      | error e => cases h
  · rintro ⟨a, s', hm, hf⟩
    rw [hm]
    exact hf

/-- A result that does not depend on the state, when it is there. -/
theorem ofExcept_eq_ok {x : Except ε α} {s s' : σ} {a : α} :
  (ofExcept x : Action ε σ α) s = (.ok a, s') ↔ x = .ok a ∧ s = s'
  := by
  rw [ofExcept, Prod.mk.injEq]

/-! ### Growth -/

section Grows

variable [Preorder σ]

/-- The state has grown from `s`, whatever the outcome is. -/
def Grows (m : Action ε σ α) (s : σ) : Prop := s ≤ (m s).2

variable {m : Action ε σ α} {s : σ}

theorem Grows.bind {f : α → Action ε σ β} (h : Grows m s)
    (hf : ∀ a s', m s = (.ok a, s') → Grows (f a) s') :
  Grows (m >>= f) s
  := by
  rw [Grows, bind_apply]
  rw [Grows] at h
  cases hm : m s with
  | mk result s' =>
    rw [hm] at h
    cases result with
    | ok a => exact h.trans (hf a s' hm)
    | error e => exact h

/-- An action that leaves the state alone. -/
theorem Grows.of_eq (h : (m s).2 = s) :
  Grows m s
  := by
  rw [Grows, h]

end Grows

/-! ### Postconditions -/

section Meets

variable [Preorder σ]

/-- From `s` the action returns a result with `post`, or it fails and there is an excuse;
in both cases the state has grown. -/
def Meets (m : Action ε σ α) (s : σ) (post : α → σ → Prop) (excuse : Prop) : Prop :=
  s ≤ (m s).2 ∧
    match (m s).1 with
    | .ok a => post a (m s).2
    | .error _ => excuse

variable {m : Action ε σ α} {s : σ} {post post' : α → σ → Prop} {excuse excuse' : Prop}

theorem Meets.mono (h : Meets m s post excuse) (hpost : ∀ a s', s ≤ s' → post a s' → post' a s')
    (hexcuse : excuse → excuse') :
  Meets m s post' excuse'
  := by
  obtain ⟨hle, h⟩ := h
  use hle
  cases hm : (m s).1 with
  | ok a =>
    rw [hm] at h
    exact hpost a _ hle h
  | error e =>
    rw [hm] at h
    exact hexcuse h

theorem Meets.bind {f : α → Action ε σ β} {post' : β → σ → Prop} (h : Meets m s post excuse)
    (hf : ∀ a s', s ≤ s' → post a s' → Meets (f a) s' post' excuse) :
  Meets (m >>= f) s post' excuse
  := by
  obtain ⟨hle, h⟩ := h
  rw [Meets, bind_apply]
  revert hle h
  cases hm : m s with
  | mk result s' =>
    cases result with
    | ok a =>
      intro hle h
      obtain ⟨hle', h'⟩ := hf a s' hle h
      exact ⟨hle.trans hle', h'⟩
    | error e =>
      intro hle h
      exact ⟨hle, h⟩

theorem Meets.pure {a : α} (h : post a s) :
  Meets (Pure.pure a : Action ε σ α) s post excuse
  := ⟨le_refl s, h⟩

theorem Meets.throw {e : ε} (h : excuse) :
  Meets (throw e : Action ε σ α) s post excuse
  := ⟨le_refl s, h⟩

theorem Meets.ofExcept {x : Except ε α} {a : α} (hx : x = .ok a) (h : post a s) :
  Meets (ofExcept x : Action ε σ α) s post excuse
  := by
  subst hx
  exact ⟨le_refl s, h⟩

/-- What the action returns, when it succeeds. -/
theorem Meets.of_ok (h : Meets m s post excuse) {a : α} {s' : σ} (hm : m s = (.ok a, s')) :
  s ≤ s' ∧ post a s'
  := by
  rw [Meets, hm] at h
  exact h

/-- Without an excuse the action succeeds. -/
theorem Meets.exists_ok (h : Meets m s post excuse) (hexcuse : ¬ excuse) :
  ∃ a s', m s = (.ok a, s') ∧ s ≤ s' ∧ post a s'
  := by
  obtain ⟨hle, h⟩ := h
  cases hm : m s with
  | mk result s' =>
    rw [hm] at h hle
    cases result with
    | ok a => exact ⟨a, s', rfl, hle, h⟩
    | error e => exact absurd h hexcuse

end Meets

end Action

end Logic
