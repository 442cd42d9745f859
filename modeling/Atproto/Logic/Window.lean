import Mathlib.Data.List.Basic
import Mathlib.Tactic.SplitIfs

/-!
# Sliding windows

Calls are admitted one after another, and a call is admitted when fewer than a limit have been
admitted in the window before it.  Then no window has more than the limit of admitted calls.
-/

namespace Logic.Window

variable {α : Type} (limit window : Nat)

/-- A time has not left the window that ends now. -/
def isLive (now time : Nat) : Bool := now ≤ time + window

/-- A call is admitted after those that were admitted before. -/
def admits (history : List Nat) (now : Nat) : Bool :=
  (history.filter (isLive window now)).length < limit

/-- The calls that were admitted, after another call. -/
def record (history : List Nat) (now : Nat) : List Nat :=
  if admits limit window history now then history ++ [now] else history

/-- The calls of a run, each with the decision on it. -/
def trace (time : α → Nat) : List Nat → List α → List (α × Bool)
  | _, [] => []
  | history, call :: calls =>
    (call, admits limit window history (time call)) ::
      trace time (record limit window history (time call)) calls

/-- A time is in the window that begins at another. -/
def isWithin (start time : Nat) : Bool := start ≤ time && time ≤ start + window

variable {limit window} {time : α → Nat} {history : List Nat} {calls : List α}

/-- A call keeps the bound on every window. -/
theorem length_within_record {now start : Nat}
    (hbound : (history.filter (isWithin window start)).length ≤ limit) :
  ((record limit window history now).filter (isWithin window start)).length ≤ limit
  := by
  rw [record]
  split_ifs with hadmits
  · rw [List.filter_append, List.length_append]
    by_cases hwithin : isWithin window start now = true
    · rw [List.filter_cons_of_pos hwithin, List.filter_nil, List.length_singleton]
      have hlive : (history.filter (isWithin window start)).length ≤
          (history.filter (isLive window now)).length := by
        apply List.Sublist.length_le
        apply List.monotone_filter_right
        intro t ht
        simp only [isWithin, Bool.and_eq_true, decide_eq_true_eq] at ht hwithin
        rw [isLive, decide_eq_true_eq]
        omega
      rw [admits, decide_eq_true_eq] at hadmits
      omega
    · rw [List.filter_cons_of_neg hwithin, List.filter_nil, List.length_nil, Nat.add_zero]
      exact hbound
  · exact hbound

/-- The times at which calls of a trace were admitted. -/
def admitted (time : α → Nat) (trace : List (α × Bool)) : List Nat :=
  (trace.filter Prod.snd).map fun entry => time entry.1

theorem admitted_cons (call : α) (decision : Bool) (rest : List (α × Bool)) :
  admitted time ((call, decision) :: rest) =
    (if decision then [time call] else []) ++ admitted time rest
  := by
  cases decision with
  | false => rfl
  | true => rfl

theorem record_eq (history : List Nat) (now : Nat) :
  record limit window history now =
    history ++ if admits limit window history now then [now] else []
  := by
  rw [record]
  split_ifs
  · rfl
  · rw [List.append_nil]

/-- What is recorded in a run is what was admitted. -/
theorem append_admitted (history : List Nat) (calls : List α) :
  history ++ admitted time (trace limit window time history calls) =
    (calls.map time).foldl (record limit window) history
  := by
  induction calls generalizing history with
  | nil => exact List.append_nil history
  | cons call calls ih =>
    rw [trace, admitted_cons, List.map_cons, List.foldl_cons, ← ih, record_eq, List.append_assoc]

/-- No window has more than the limit of admitted calls. -/
theorem length_within_le (start : Nat) :
  ((admitted time (trace limit window time [] calls)).filter (isWithin window start)).length ≤ limit
  := by
  have hrun : ∀ (times history : List Nat),
      (history.filter (isWithin window start)).length ≤ limit →
      ((times.foldl (record limit window) history).filter (isWithin window start)).length ≤ limit := by
    intro times
    induction times with
    | nil => exact fun history h => h
    | cons now times ih => exact fun history h => ih _ (length_within_record h)
  have h := hrun (calls.map time) [] (Nat.zero_le _)
  rwa [← append_admitted, List.nil_append] at h

/-- A call is refused only when the window before it is full. -/
theorem le_length_of_refused {before after : List (α × Bool)} {call : α}
    (h : trace limit window time history calls = before ++ (call, false) :: after) :
  limit ≤ ((history ++ admitted time before).filter (isLive window (time call))).length
  := by
  induction before generalizing history calls with
  | nil =>
    cases calls with
    | nil => cases h
    | cons first calls =>
      rw [trace, List.nil_append, List.cons.injEq, Prod.mk.injEq] at h
      obtain ⟨⟨rfl, hrefused⟩, -⟩ := h
      rw [admits, decide_eq_false_iff_not, Nat.not_lt] at hrefused
      rw [admitted, List.filter_nil, List.map_nil, List.append_nil]
      exact hrefused
  | cons entry before ih =>
    cases calls with
    | nil => cases h
    | cons first calls =>
      obtain ⟨earlier, decision⟩ := entry
      rw [trace, List.cons_append, List.cons.injEq, Prod.mk.injEq] at h
      obtain ⟨⟨rfl, rfl⟩, hrest⟩ := h
      have hle := ih hrest
      rwa [record_eq, List.append_assoc, ← admitted_cons] at hle

/-- A trace is that of its calls. -/
theorem map_fst_trace :
  (trace limit window time history calls).map Prod.fst = calls
  := by
  induction calls generalizing history with
  | nil => rfl
  | cons call calls ih => rw [trace, List.map_cons, ih]

end Logic.Window
