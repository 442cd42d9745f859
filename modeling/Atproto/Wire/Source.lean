import Atproto.Wire.Reader

/-!
# Sources

A source gives away exactly the number of bytes asked for, or fails.  A slice is a source,
and so is what arrives in pieces.  What a program reads depends on the contents of its
source alone.
-/

namespace Wire

/-- A source with states `σ`: its contents, and what it gives away. -/
structure Source (σ : Type) where
  contents : σ → List UInt8
  readExact : Nat → σ → Option (List UInt8 × σ)
  short : ∀ {n s}, (contents s).length < n → readExact n s = none
  exact : ∀ {n s}, n ≤ (contents s).length →
    ∃ s', readExact n s = some ((contents s).take n, s') ∧ contents s' = (contents s).drop n

/-! ### Slices -/

/-- Take bytes off the front of a slice. -/
def readSlice (n : Nat) (input : List UInt8) : Option (List UInt8 × List UInt8) :=
  if n ≤ input.length then some (input.take n, input.drop n) else none

theorem readSlice_append (bytes rest : List UInt8) :
  readSlice bytes.length (bytes ++ rest) = some (bytes, rest)
  := by
  rw [readSlice, if_pos (by simp), List.take_left, List.drop_left]

/-- A slice. -/
def slice : Source (List UInt8) where
  contents input := input
  readExact := readSlice
  short h := if_neg (Nat.not_le.mpr h)
  exact {n s} h := ⟨s.drop n, if_pos h, rfl⟩

/-! ### Pieces -/

/-- Bytes that arrive in pieces.  No piece is empty, for that would be the end. -/
abbrev Pieces : Type := { pieces : List (List UInt8) // [] ∉ pieces }

/-- All bytes can arrive. -/
theorem exists_pieces (bytes : List UInt8) :
  ∃ s : Pieces, s.1.flatten = bytes
  := by
  by_cases h : bytes = []
  · exact ⟨⟨[], List.not_mem_nil⟩, h.symm⟩
  · exact ⟨⟨[bytes], fun hmem => h (List.mem_singleton.mp hmem).symm⟩, List.append_nil bytes⟩

/-- Take bytes off the front of some pieces, one piece after another. -/
def readPieces : Nat → List (List UInt8) → Option (List UInt8 × List (List UInt8))
  | 0, pieces => some ([], pieces)
  | _ + 1, [] => none
  | n + 1, piece :: pieces =>
    if n + 1 < piece.length then
      some (piece.take (n + 1), piece.drop (n + 1) :: pieces)
    else
      (readPieces (n + 1 - piece.length) pieces).map fun p => (piece ++ p.1, p.2)

theorem readPieces_short {n : Nat} {pieces : List (List UInt8)} (h : pieces.flatten.length < n) :
  readPieces n pieces = none
  := by
  induction pieces generalizing n with
  | nil =>
    cases n with
    | zero => exact absurd h (Nat.not_lt_zero _)
    | succ n => rfl
  | cons piece pieces ih =>
    rw [List.flatten_cons, List.length_append] at h
    cases n with
    | zero => exact absurd h (Nat.not_lt_zero _)
    | succ n =>
      rw [readPieces, if_neg (by omega), ih (by omega)]
      rfl

theorem readPieces_exact {n : Nat} {pieces : List (List UInt8)} (hpieces : [] ∉ pieces)
    (h : n ≤ pieces.flatten.length) :
  ∃ rest, readPieces n pieces = some (pieces.flatten.take n, rest) ∧
    rest.flatten = pieces.flatten.drop n ∧ [] ∉ rest
  := by
  induction pieces generalizing n with
  | nil =>
    obtain rfl := Nat.le_zero.mp h
    exact ⟨[], rfl, rfl, hpieces⟩
  | cons piece pieces ih =>
    obtain ⟨hpiece, hrest⟩ := not_or.mp (mt List.mem_cons.mpr hpieces)
    rw [List.flatten_cons] at h ⊢
    rw [List.length_append] at h
    cases n with
    | zero => exact ⟨piece :: pieces, rfl, rfl, hpieces⟩
    | succ n =>
      rw [readPieces]
      split_ifs with hlt
      · use piece.drop (n + 1) :: pieces
        rw [List.take_append_of_le_length (Nat.le_of_lt hlt),
          List.drop_append_of_le_length (Nat.le_of_lt hlt)]
        use rfl, rfl
        rw [List.mem_cons, not_or]
        use mt Eq.symm (mt List.drop_eq_nil_iff.mp (Nat.not_le.mpr hlt))
      · obtain ⟨rest, hread, hflatten, hnonempty⟩ := ih hrest (n := n + 1 - piece.length) (by omega)
        use rest
        rw [hread, hflatten, List.take_append, List.drop_append,
          List.take_of_length_le (Nat.not_lt.mp hlt), List.drop_of_length_le (Nat.not_lt.mp hlt)]
        use rfl, rfl

/-- What is left has no empty piece either. -/
theorem readPieces_nonempty {n : Nat} {pieces : List (List UInt8)} (hpieces : [] ∉ pieces)
    {p : List UInt8 × List (List UInt8)} (h : readPieces n pieces = some p) :
  [] ∉ p.2
  := by
  by_cases hlength : n ≤ pieces.flatten.length
  · obtain ⟨rest, hread, -, hrest⟩ := readPieces_exact hpieces hlength
    rw [hread] at h
    cases h
    exact hrest
  · rw [readPieces_short (Nat.not_le.mp hlength)] at h
    cases h

/-- Take bytes off the front of what arrives in pieces. -/
def readArriving (n : Nat) (s : Pieces) : Option (List UInt8 × Pieces) :=
  match h : readPieces n s.1 with
  | none => none
  | some p => some (p.1, ⟨p.2, readPieces_nonempty s.2 h⟩)

theorem readArriving_short {n : Nat} {s : Pieces} (h : s.1.flatten.length < n) :
  readArriving n s = none
  := by
  unfold readArriving
  split
  · rfl
  · next p hp =>
    rw [readPieces_short h] at hp
    cases hp

theorem readArriving_exact {n : Nat} {s : Pieces} (h : n ≤ s.1.flatten.length) :
  ∃ s', readArriving n s = some (s.1.flatten.take n, s') ∧ s'.1.flatten = s.1.flatten.drop n
  := by
  obtain ⟨rest, hread, hflatten, hrest⟩ := readPieces_exact s.2 h
  use ⟨rest, hrest⟩
  use ?_, hflatten
  unfold readArriving
  split
  · next hnone =>
    rw [hread] at hnone
    cases hnone
  · next p hp =>
    rw [hread] at hp
    cases hp
    rfl

/-- What arrives in pieces. -/
def arriving : Source Pieces where
  contents s := s.1.flatten
  readExact := readArriving
  short := readArriving_short
  exact := readArriving_exact

/-! ### Programs that read -/

variable {σ ε α β : Type}

/-- A program does with a source what a reader does with its contents. -/
def Follows (source : Source σ) (program : StateT σ (Except ε) α) (reader : Reader ε α) : Prop :=
  ∀ s, (program s).map (fun p => (p.1, source.contents p.2)) = reader (source.contents s)

namespace Follows

variable {source : Source σ}

theorem pure (a : α) :
  Follows source (Pure.pure a : StateT σ (Except ε) α) (Pure.pure a)
  := fun _ => rfl

theorem throw (e : ε) :
  Follows source (throw e : StateT σ (Except ε) α) (throw e)
  := fun _ => rfl

/-- What has no source. -/
theorem lift (value : Except ε α) :
  Follows source (liftM value : StateT σ (Except ε) α) (liftM value)
  := by
  intro s
  cases value <;> rfl

theorem bind {program : StateT σ (Except ε) α} {reader : Reader ε α}
    {f : α → StateT σ (Except ε) β} {g : α → Reader ε β} (h : Follows source program reader)
    (hf : ∀ a, Follows source (f a) (g a)) :
  Follows source (program >>= f) (reader >>= g)
  := by
  intro s
  rw [bind_apply, ← h s]
  change (program s >>= fun p => f p.1 p.2).map _ = _
  cases hs : program s with
  | error e => rfl
  | ok p => exact hf p.1 p.2

theorem ite {c : Prop} [Decidable c] {program program' : StateT σ (Except ε) α}
    {reader reader' : Reader ε α} (h : Follows source program reader)
    (h' : Follows source program' reader') :
  Follows source (if c then program else program') (if c then reader else reader')
  := by
  by_cases hc : c
  · rw [if_pos hc, if_pos hc]
    exact h
  · rw [if_neg hc, if_neg hc]
    exact h'

end Follows

end Wire
