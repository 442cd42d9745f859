import Mathlib.Data.List.Pairwise
import Mathlib.Tactic.SplitIfs

/-!
# Tokens that are taken once

Calls ask for tokens, each until a deadline.  A token is given when nobody has taken it, or when the
deadline until which it was taken has passed.
-/

namespace Logic.Once

variable {Token α : Type} [DecidableEq Token]

/-- A token has been taken until a time that has not passed. -/
def isTaken (history : List (Token × Nat)) (now : Nat) (token : Token) : Bool :=
  history.any fun entry => entry.1 = token && now ≤ entry.2

/-- A call gets the token that it asks for. -/
def gives (history : List (Token × Nat)) (now : Nat) : Option (Token × Nat) → Bool
  | none => false
  | some (token, _) => !isTaken history now token

/-- What has been taken, after a call. -/
def record (history : List (Token × Nat)) (now : Nat) (asked : Option (Token × Nat)) :
    List (Token × Nat) :=
  if gives history now asked then history ++ asked.toList else history

variable (time : α → Nat) (ask : α → Option (Token × Nat))

/-- The calls of a run, each with the decision on it. -/
def trace : List (Token × Nat) → List α → List (α × Bool)
  | _, [] => []
  | history, call :: calls =>
    (call, gives history (time call) (ask call)) ::
      trace (record history (time call) (ask call)) calls

variable {time ask} {history : List (Token × Nat)} {now : Nat} {token : Token} {calls : List α}

theorem isTaken_append (later : List (Token × Nat)) :
  isTaken (history ++ later) now token = (isTaken history now token || isTaken later now token)
  := List.any_append

/-- A token that is free stays free. -/
theorem isTaken_later {now' : Nat} (h : isTaken history now token = false) (hle : now ≤ now') :
  isTaken history now' token = false
  := by
  rw [isTaken, List.any_eq_false] at h ⊢
  intro entry hentry htaken
  rw [Bool.and_eq_true, decide_eq_true_eq, decide_eq_true_eq] at htaken
  apply h entry hentry
  rw [Bool.and_eq_true, decide_eq_true_eq, decide_eq_true_eq]
  exact ⟨htaken.1, Nat.le_trans hle htaken.2⟩

theorem mem_record_of_mem {entry : Token × Nat} {asked : Option (Token × Nat)}
    (h : entry ∈ history) :
  entry ∈ record history now asked
  := by
  rw [record]
  split_ifs
  · exact List.mem_append_left _ h
  · exact h

/-- A trace is that of its calls. -/
theorem map_fst_trace :
  (trace time ask history calls).map Prod.fst = calls
  := by
  induction calls generalizing history with
  | nil => rfl
  | cons call calls ih => rw [trace, List.map_cons, ih]

/-- A call that gets a token has asked for it. -/
theorem asked_of_gives :
  ∀ entry ∈ trace time ask history calls, entry.2 = true → ∃ asked, ask entry.1 = some asked
  := by
  induction calls generalizing history with
  | nil => exact fun entry hentry => absurd hentry List.not_mem_nil
  | cons call calls ih =>
    intro entry hentry hgiven
    rcases List.mem_cons.mp hentry with rfl | hentry
    · have hgives : gives history (time call) (ask call) = true := hgiven
      cases hask : ask call with
      | none =>
        rw [hask, gives] at hgives
        cases hgives
      | some asked => exact ⟨asked, rfl⟩
    · exact ih entry hentry hgiven

/-- What has been taken is given again only after its deadline. -/
theorem lt_of_gives {deadline : Nat} (htaken : (token, deadline) ∈ history) :
  ∀ entry ∈ trace time ask history calls, entry.2 = true →
    ∀ deadline', ask entry.1 = some (token, deadline') → deadline < time entry.1
  := by
  induction calls generalizing history with
  | nil => exact fun entry hentry => absurd hentry List.not_mem_nil
  | cons call calls ih =>
    intro entry hentry hgiven deadline' hask
    rcases List.mem_cons.mp hentry with rfl | hentry
    · have hask' : ask call = some (token, deadline') := hask
      have hgives : gives history (time call) (ask call) = true := hgiven
      rw [hask', gives, Bool.not_eq_true', isTaken, List.any_eq_false] at hgives
      have hfree := hgives _ htaken
      rw [Bool.and_eq_true, decide_eq_true_eq, decide_eq_true_eq, not_and, Nat.not_le] at hfree
      exact hfree rfl
    · exact ih (mem_record_of_mem htaken) entry hentry hgiven deadline' hask

/-- A token is given twice only when the first deadline has passed. -/
theorem pairwise_trace :
  (trace time ask history calls).Pairwise fun a b => a.2 = true → b.2 = true →
    ∀ token deadline deadline', ask a.1 = some (token, deadline) →
      ask b.1 = some (token, deadline') → deadline < time b.1
  := by
  induction calls generalizing history with
  | nil => exact List.Pairwise.nil
  | cons call calls ih =>
    apply List.Pairwise.cons _ ih
    intro entry hentry hgiven hgiven' token deadline deadline' hask hask'
    apply lt_of_gives _ entry hentry hgiven' deadline' hask'
    have hgiven'' : gives history (time call) (ask call) = true := hgiven
    have hasked : ask call = some (token, deadline) := hask
    rw [record, if_pos hgiven'', hasked]
    exact List.mem_append_right _ (List.mem_singleton_self _)

/-- Calls are decided by the calls for their own tokens. -/
theorem filter_trace {history' : List (Token × Nat)} {own : Token → Prop} {isOwn : α → Bool}
    (hown : ∀ call ∈ calls, isOwn call = true → ∀ asked ∈ ask call, own asked.1)
    (hother : ∀ call ∈ calls, isOwn call = false → ∀ asked ∈ ask call, ¬ own asked.1)
    (h : ∀ now token, own token → isTaken history now token = isTaken history' now token) :
  (trace time ask history calls).filter (fun entry => isOwn entry.1) =
    trace time ask history' (calls.filter isOwn)
  := by
  induction calls generalizing history history' with
  | nil => rfl
  | cons call calls ih =>
    have hown' : ∀ other ∈ calls, isOwn other = true → ∀ asked ∈ ask other, own asked.1 :=
      fun other hmem => hown other (List.mem_cons_of_mem _ hmem)
    have hother' : ∀ other ∈ calls, isOwn other = false → ∀ asked ∈ ask other, ¬ own asked.1 :=
      fun other hmem => hother other (List.mem_cons_of_mem _ hmem)
    rw [trace]
    cases hcall : isOwn call with
    | true =>
      have hgives : gives history (time call) (ask call) = gives history' (time call) (ask call) := by
        cases hask : ask call with
        | none => rfl
        | some asked =>
          rw [gives, gives, h _ _ (hown call List.mem_cons_self hcall asked hask)]
      rw [List.filter_cons, if_pos hcall, List.filter_cons, if_pos hcall, trace, hgives]
      congr 1
      apply ih hown' hother'
      intro now token htoken
      rw [record, record, hgives]
      split_ifs
      · rw [isTaken_append, isTaken_append, h now token htoken]
      · exact h now token htoken
    | false =>
      have hcall' : ¬ isOwn call = true := Bool.eq_false_iff.mp hcall
      rw [List.filter_cons, if_neg hcall', List.filter_cons, if_neg hcall']
      apply ih hown' hother'
      intro now token htoken
      rw [← h now token htoken, record]
      split_ifs
      · rw [isTaken_append]
        cases hask : ask call with
        | none => rw [Option.toList_none, isTaken, isTaken, List.any_nil, Bool.or_false]
        | some asked =>
          have hne : ¬ asked.1 = token := by
            rintro rfl
            exact hother call List.mem_cons_self hcall asked hask htoken
          rw [Option.toList_some, isTaken, isTaken, List.any_cons, List.any_nil,
            decide_eq_false hne, Bool.false_and, Bool.or_false, Bool.or_false]
      · rfl

end Logic.Once
