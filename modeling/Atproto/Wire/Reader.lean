import Mathlib.Data.List.Basic
import Mathlib.Tactic.Use

/-!
# Readers

A reader takes a value off the front of some bytes, or fails.  `Reads` says what a reader
does with the bytes of a value in front of others, and `Parses` what the bytes are that it
takes.
-/

namespace Wire

/-- A reader with errors `ε`. -/
abbrev Reader (ε α : Type) : Type := StateT (List UInt8) (Except ε) α

variable {ε α β : Type}

/-- Fail. -/
def Reader.fail (e : ε) : Reader ε α := fun _ => .error e

theorem bind_apply (r : Reader ε α) (f : α → Reader ε β) (input : List UInt8) :
  (r >>= f) input =
    match r input with
    | .ok (a, rest) => f a rest
    | .error e => .error e
  := by
  change (r input >>= fun p => f p.1 p.2) = _
  cases r input with
  | error e => rfl
  | ok p => rfl

/-! ### From values to bytes -/

/-- In front of at least `need` more bytes, the reader takes `bytes` for `a`, or it fails
and there is an excuse. -/
def Reads (r : Reader ε α) (bytes : List UInt8) (a : α) (need : Nat) (excuse : Prop) : Prop :=
  ∀ rest, need ≤ rest.length →
    r (bytes ++ rest) = .ok (a, rest) ∨ (∃ e, r (bytes ++ rest) = .error e) ∧ excuse

namespace Reads

variable {r : Reader ε α} {bytes bytes' : List UInt8} {a : α} {b : β} {need need' : Nat}
  {excuse excuse' : Prop}

theorem mono (h : Reads r bytes a need excuse) (hneed : need ≤ need') (hexcuse : excuse → excuse') :
  Reads r bytes a need' excuse'
  := by
  intro rest hrest
  obtain hok | ⟨herror, hex⟩ := h rest (Nat.le_trans hneed hrest)
  · exact Or.inl hok
  · exact Or.inr ⟨herror, hexcuse hex⟩

theorem pure (a : α) :
  Reads (Pure.pure a : Reader ε α) [] a 0 excuse
  := fun _ _ => Or.inl rfl

theorem fail {e : ε} (h : excuse) :
  Reads (Reader.fail e : Reader ε α) bytes a need excuse
  := fun _ _ => Or.inr ⟨⟨e, rfl⟩, h⟩

theorem bind {f : α → Reader ε β} (h : Reads r bytes a need excuse)
    (hf : Reads (f a) bytes' b need' excuse) (hneed : need ≤ bytes'.length + need') :
  Reads (r >>= f) (bytes ++ bytes') b need' excuse
  := by
  intro rest hrest
  rw [List.append_assoc, bind_apply]
  have hlength : need ≤ (bytes' ++ rest).length := by
    rw [List.length_append]
    omega
  obtain hok | ⟨⟨e, herror⟩, hex⟩ := h (bytes' ++ rest) hlength
  · rw [hok]
    exact hf rest hrest
  · rw [herror]
    exact Or.inr ⟨⟨e, rfl⟩, hex⟩

/-- What follows may take no bytes. -/
theorem bind_nil {f : α → Reader ε β} (h : Reads r bytes a need excuse)
    (hf : Reads (f a) [] b need' excuse) (hneed : need ≤ need') :
  Reads (r >>= f) bytes b need' excuse
  := by
  have hbind := h.bind hf (by simpa using hneed)
  rwa [List.append_nil] at hbind

/-- Without an excuse the reader takes the bytes. -/
theorem ok (h : Reads r bytes a need excuse) (hexcuse : ¬ excuse) {rest : List UInt8}
    (hrest : need ≤ rest.length) :
  r (bytes ++ rest) = .ok (a, rest)
  := by
  obtain hok | ⟨-, hex⟩ := h rest hrest
  · exact hok
  · exact absurd hex hexcuse

/-- What the reader takes the bytes for, when it does not fail. -/
theorem of_ok (h : Reads r bytes a need excuse) {rest rest' : List UInt8} {a' : α}
    (hrest : need ≤ rest.length) (hok : r (bytes ++ rest) = .ok (a', rest')) :
  a' = a ∧ rest' = rest
  := by
  obtain hok' | ⟨⟨e, herror⟩, -⟩ := h rest hrest
  · rw [hok] at hok'
    cases hok'
    exact ⟨rfl, rfl⟩
  · rw [hok] at herror
    cases herror

end Reads

/-! ### From bytes to values -/

/-- What the reader takes is some bytes with `post`, in front of the rest. -/
def Parses (r : Reader ε α) (post : α → List UInt8 → Prop) : Prop :=
  ∀ input a rest, r input = .ok (a, rest) → ∃ bytes, input = bytes ++ rest ∧ post a bytes

namespace Parses

variable {r : Reader ε α} {post post' : α → List UInt8 → Prop}

theorem mono (h : Parses r post) (hpost : ∀ a bytes, post a bytes → post' a bytes) :
  Parses r post'
  := by
  intro input a rest hok
  obtain ⟨bytes, hinput, ha⟩ := h input a rest hok
  exact ⟨bytes, hinput, hpost a bytes ha⟩

theorem pure {a : α} (h : post a []) :
  Parses (Pure.pure a : Reader ε α) post
  := by
  intro input a' rest hok
  cases hok
  exact ⟨[], rfl, h⟩

theorem fail {e : ε} :
  Parses (Reader.fail e : Reader ε α) post
  := nofun

theorem ite {c : Prop} [Decidable c] {r' : Reader ε α} (hpos : c → Parses r post)
    (hneg : ¬ c → Parses r' post) :
  Parses (if c then r else r') post
  := by
  by_cases h : c
  · rw [if_pos h]
    exact hpos h
  · rw [if_neg h]
    exact hneg h

theorem bind {f : α → Reader ε β} {post' : β → List UInt8 → Prop} (h : Parses r post)
    (hf : ∀ a bytes, post a bytes → Parses (f a) fun b bytes' => post' b (bytes ++ bytes')) :
  Parses (r >>= f) post'
  := by
  intro input b rest hok
  rw [bind_apply] at hok
  cases hr : r input with
  | error e =>
    rw [hr] at hok
    cases hok
  | ok p =>
    obtain ⟨a, middle⟩ := p
    rw [hr] at hok
    obtain ⟨bytes, rfl, ha⟩ := h input a middle hr
    obtain ⟨bytes', rfl, hb⟩ := hf a bytes ha middle b rest hok
    exact ⟨bytes ++ bytes', (List.append_assoc _ _ _).symm, hb⟩

end Parses

end Wire
