import Mathlib.Data.List.Perm.Basic
import Mathlib.Data.List.Nodup

/-!
# Searching by levels

A search visits the nodes of a graph level by level: the nodes that are referred to by those of one
level are pending at the next.  Whatever the order within a level, a node is visited at its
distance from the start, and once.
-/

namespace Logic

variable {α R : Type}

/-! ### Distances -/

section Distance

variable (step : α → α → Prop) (start : α)

/-- There is a path of a length to a node. -/
def PathTo : ℕ → α → Prop
  | 0 => (· = start)
  | n + 1 => fun x => ∃ y, PathTo n y ∧ step y x

/-- A node is at most some distance away. -/
def Within (n : ℕ) (x : α) : Prop := ∃ k ≤ n, PathTo step start k x

/-- What is known before the nodes at a distance are visited: those nearer are visited, and those
pending are at the distance and are all that are. -/
structure AtLevel (n : ℕ) (visited pending : α → Prop) : Prop where
  visited_iff : ∀ x, visited x ↔ ∃ k < n, PathTo step start k x
  pending_at : ∀ x, pending x → PathTo step start n x
  pending_of : ∀ x, PathTo step start n x → pending x ∨ visited x

variable {step start}

/-- Visiting what is pending leads to the next level. -/
theorem AtLevel.visited_succ {n : ℕ} {visited pending : α → Prop}
    (h : AtLevel step start n visited pending) (x : α) :
  visited x ∨ pending x ↔ ∃ k < n + 1, PathTo step start k x
  := by
  constructor
  · rintro (hx | hx)
    · obtain ⟨k, hk, hpath⟩ := (h.visited_iff x).mp hx
      exact ⟨k, by omega, hpath⟩
    · exact ⟨n, Nat.lt_succ_self n, h.pending_at x hx⟩
  · rintro ⟨k, hk, hpath⟩
    rcases Nat.lt_or_ge k n with hlt | hge
    · exact .inl ((h.visited_iff x).mpr ⟨k, hlt, hpath⟩)
    · cases (by omega : k = n)
      exact (h.pending_of x hpath).symm

theorem AtLevel.succ {n : ℕ} {visited pending visited' pending' : α → Prop}
    (h : AtLevel step start n visited pending)
    (hvisited : ∀ x, visited' x ↔ visited x ∨ pending x)
    (hpending : ∀ x, pending' x ↔ ∃ y, pending y ∧ ¬ visited y ∧ step y x) :
  AtLevel step start (n + 1) visited' pending'
  where
  visited_iff x := (hvisited x).trans (h.visited_succ x)
  pending_at x hx := by
    obtain ⟨y, hy, -, hstep⟩ := (hpending x).mp hx
    exact ⟨y, h.pending_at y hy, hstep⟩
  pending_of x hx := by
    obtain ⟨y, hpath, hstep⟩ := hx
    by_cases hy : visited y
    · obtain ⟨k, hk, hk'⟩ := (h.visited_iff y).mp hy
      exact .inr ((hvisited x).mpr ((h.visited_succ x).mpr ⟨k + 1, by omega, y, hk', hstep⟩))
    · exact .inl ((hpending x).mpr ⟨y, (h.pending_of y hpath).resolve_right hy, hy, hstep⟩)

/-- When nothing is pending, nothing is further away. -/
theorem AtLevel.of_nothing {n : ℕ} {visited pending : α → Prop}
    (h : AtLevel step start n visited pending) (hnone : ∀ x, ¬ pending x) {m : ℕ} (hm : n ≤ m) :
  AtLevel step start m visited pending
  := by
  obtain ⟨k, rfl⟩ := Nat.exists_eq_add_of_le hm
  induction k with
  | zero => exact h
  | succ k ih =>
    apply (ih (Nat.le_add_right n k)).succ
    · intro x
      exact ⟨.inl, fun hx => hx.resolve_right (hnone x)⟩
    · intro x
      exact ⟨fun hx => absurd hx (hnone x), fun ⟨y, hy, _⟩ => absurd hy (hnone y)⟩

/-- The first level is that of the start alone. -/
theorem AtLevel.zero_iff {n : ℕ} {visited pending : α → Prop}
    (h : AtLevel step start n visited pending) {x : α} (hx : pending x) (hnew : ¬ visited x) :
  n = 0 ↔ x = start
  := by
  constructor
  · rintro rfl
    exact h.pending_at x hx
  · rintro rfl
    by_contra hn
    exact hnew ((h.visited_iff x).mpr ⟨0, Nat.pos_of_ne_zero hn, rfl⟩)

end Distance

/-! ### The search -/

section Search

variable [DecidableEq α]

/-- A value is in a list. -/
def among (x : α) (xs : List α) : Bool := xs.any fun y => y = x

theorem among_iff {x : α} {xs : List α} :
  among x xs = true ↔ x ∈ xs
  := by
  rw [among, List.any_eq_true]
  constructor
  · rintro ⟨y, hy, heq⟩
    exact of_decide_eq_true heq ▸ hy
  · exact fun h => ⟨x, h, decide_eq_true rfl⟩

/-- Add values to a set of values. -/
def extend (xs ys : List α) : List α :=
  ys.foldl (fun xs y => if among y xs then xs else xs ++ [y]) xs

theorem mem_extend {x : α} {xs ys : List α} :
  x ∈ extend xs ys ↔ x ∈ xs ∨ x ∈ ys
  := by
  induction ys generalizing xs with
  | nil => exact ⟨.inl, fun h => h.resolve_right List.not_mem_nil⟩
  | cons y ys ih =>
    rw [extend, List.foldl_cons]
    change x ∈ extend (if among y xs then xs else xs ++ [y]) ys ↔ _
    rw [ih, List.mem_cons]
    split_ifs with h
    · have hy := among_iff.mp h
      constructor
      · exact Or.imp_right .inr
      · rintro (hx | rfl | hx)
        · exact .inl hx
        · exact .inl hy
        · exact .inr hx
    · rw [List.mem_append, List.mem_singleton, or_assoc]

/-- A search: what was found, the nodes that were visited and those that are pending, and what was
requested, in order. -/
structure Search (α R : Type) where
  found : R
  visited : List α
  pending : List α
  requests : List α

variable (take : ℕ → α → R → R × List α) (order : ℕ → List α → List α)

/-- Visit a node unless it was visited: what is found there is taken, and what it refers to becomes
pending. -/
def Search.visit (depth : ℕ) (s : Search α R) (x : α) : Search α R :=
  if among x s.visited then s
  else
    { found := (take depth x s.found).1
      visited := x :: s.visited
      pending := extend s.pending (take depth x s.found).2
      requests := s.requests ++ [x] }

/-- Visit what is pending, in some order. -/
def Search.level (depth : ℕ) (s : Search α R) : Search α R :=
  (order depth s.pending).foldl (Search.visit take depth) { s with pending := [] }

/-- Visit some levels, or fewer when nothing is pending. -/
def Search.levels : ℕ → ℕ → Search α R → Search α R
  | 0, _, s => s
  | count + 1, depth, s =>
    if s.pending.isEmpty then s
    else levels count (depth + 1) (s.level take order depth)

/-- A search from a node. -/
def Search.start (found : R) (x : α) : Search α R := ⟨found, [], [x], []⟩

variable {take order}

/-! ### What a batch does -/

theorem Search.visit_of_mem {depth : ℕ} {s : Search α R} {x : α} (h : x ∈ s.visited) :
  s.visit take depth x = s
  := if_pos (among_iff.mpr h)

theorem Search.visit_of_not_mem {depth : ℕ} {s : Search α R} {x : α} (h : x ∉ s.visited) :
  s.visit take depth x =
    ⟨(take depth x s.found).1, x :: s.visited, extend s.pending (take depth x s.found).2,
      s.requests ++ [x]⟩
  := if_neg fun hx => h (among_iff.mp hx)

/-- The nodes that are visited when nodes are visited one after another. -/
theorem Search.mem_visit_all {depth : ℕ} {batch : List α} {s : Search α R} (x : α) :
  x ∈ (batch.foldl (Search.visit take depth) s).visited ↔ x ∈ s.visited ∨ x ∈ batch
  := by
  induction batch generalizing s with
  | nil => simp
  | cons y batch ih =>
    rw [List.foldl_cons, ih, List.mem_cons]
    by_cases hy : y ∈ s.visited
    · rw [Search.visit_of_mem hy]
      constructor
      · exact Or.imp_right .inr
      · rintro (hx | rfl | hx)
        · exact .inl hx
        · exact .inl hy
        · exact .inr hx
    · rw [Search.visit_of_not_mem hy, List.mem_cons, or_assoc, or_left_comm]

/-- The nodes that become pending when nodes are visited one after another. -/
theorem Search.mem_pending_visit_all {refers : α → α → Prop} {depth : ℕ} {batch : List α}
    (hrefs : ∀ x found z, z ∈ (take depth x found).2 ↔ refers x z) {s : Search α R} (z : α) :
  z ∈ (batch.foldl (Search.visit take depth) s).pending ↔
    z ∈ s.pending ∨ ∃ y, y ∈ batch ∧ y ∉ s.visited ∧ refers y z
  := by
  induction batch generalizing s with
  | nil => simp
  | cons x batch ih =>
    rw [List.foldl_cons, ih]
    by_cases hx : x ∈ s.visited
    · rw [Search.visit_of_mem hx]
      apply or_congr_right
      apply exists_congr
      intro y
      rw [List.mem_cons]
      constructor
      · exact fun ⟨hy, hnew, hz⟩ => ⟨.inr hy, hnew, hz⟩
      · rintro ⟨rfl | hy, hnew, hz⟩
        · exact absurd hx hnew
        · exact ⟨hy, hnew, hz⟩
    · rw [Search.visit_of_not_mem hx, mem_extend, hrefs, or_assoc]
      apply or_congr_right
      constructor
      · rintro (hz | ⟨y, hy, hnew, hz⟩)
        · exact ⟨x, List.mem_cons_self, hx, hz⟩
        · exact ⟨y, List.mem_cons_of_mem x hy, fun h => hnew (List.mem_cons_of_mem x h), hz⟩
      · rintro ⟨y, hy, hnew, hz⟩
        by_cases heq : y = x
        · exact .inl (heq ▸ hz)
        · refine .inr ⟨y, (List.mem_cons.mp hy).resolve_left heq, ?_, hz⟩
          rw [List.mem_cons, not_or]
          exact ⟨heq, hnew⟩

/-- What every visit of a new node preserves holds after a batch. -/
theorem Search.invariant_visit_all {P : Search α R → Prop} {depth : ℕ} {batch : List α}
    (hvisit : ∀ s x, P s → x ∈ batch → x ∉ s.visited → P (s.visit take depth x))
    {s : Search α R} (h : P s) :
  P (batch.foldl (Search.visit take depth) s)
  := by
  induction batch generalizing s with
  | nil => exact h
  | cons x batch ih =>
    rw [List.foldl_cons]
    apply ih fun s y hs hy => hvisit s y hs (List.mem_cons_of_mem x hy)
    by_cases hx : x ∈ s.visited
    · rw [Search.visit_of_mem hx]
      exact h
    · exact hvisit s x h List.mem_cons_self hx

/-! ### What a search does -/

variable {step : α → α → Prop} {start : α} {depth max : ℕ} {s : Search α R}

/-- At a level what was pending is visited. -/
theorem Search.mem_level (horder : ∀ depth xs, (order depth xs).Perm xs) (x : α) :
  x ∈ (s.level take order depth).visited ↔ x ∈ s.visited ∨ x ∈ s.pending
  := by
  rw [← (horder depth s.pending).mem_iff]
  exact Search.mem_visit_all x

theorem AtLevel.level (horder : ∀ depth xs, (order depth xs).Perm xs)
    (hrefs : ∀ x found z, z ∈ (take depth x found).2 ↔ step x z)
    (h : AtLevel step start depth (· ∈ s.visited) (· ∈ s.pending)) :
  AtLevel step start (depth + 1) (· ∈ (s.level take order depth).visited)
    (· ∈ (s.level take order depth).pending)
  := by
  apply h.succ (Search.mem_level horder)
  intro z
  rw [Search.level, Search.mem_pending_visit_all hrefs]
  constructor
  · rintro (hz | ⟨y, hy, hnew, hz⟩)
    · exact absurd hz List.not_mem_nil
    · exact ⟨y, (horder depth s.pending).mem_iff.mp hy, hnew, hz⟩
  · rintro ⟨y, hy, hnew, hz⟩
    exact .inr ⟨y, (horder depth s.pending).mem_iff.mpr hy, hnew, hz⟩

/-- What is found, visited and requested is kept in step by every visit of a new node. -/
def Search.Keeps (take : ℕ → α → R → R × List α) (start : α) (P : R → List α → List α → Prop) :
    Prop :=
  ∀ depth x found visited requests, P found visited requests → x ∉ visited →
    (depth = 0 ↔ x = start) → P (take depth x found).1 (x :: visited) (requests ++ [x])

theorem Search.Keeps.level {P : R → List α → List α → Prop} (hkeeps : Search.Keeps take start P)
    (horder : ∀ depth xs, (order depth xs).Perm xs)
    (h : AtLevel step start depth (· ∈ s.visited) (· ∈ s.pending))
    (hs : P s.found s.visited s.requests) :
  P (s.level take order depth).found (s.level take order depth).visited
    (s.level take order depth).requests
  := by
  let Q : Search α R → Prop := fun t =>
    P t.found t.visited t.requests ∧ ∀ x, x ∈ s.visited → x ∈ t.visited
  have hvisit : ∀ t x, Q t → x ∈ order depth s.pending → x ∉ t.visited →
      Q (t.visit take depth x) := by
    rintro t x ⟨ht, hsub⟩ hx hnew
    have hzero := h.zero_iff ((horder depth s.pending).mem_iff.mp hx) fun hx => hnew (hsub x hx)
    rw [Search.visit_of_not_mem hnew]
    exact ⟨hkeeps depth x _ _ _ ht hnew hzero, fun y hy => List.mem_cons_of_mem x (hsub y hy)⟩
  have hstart : Q { s with pending := [] } := ⟨hs, fun _ hx => hx⟩
  exact (Search.invariant_visit_all hvisit hstart).1

/-- A search through some levels visits the nodes within that distance, and keeps what every visit
of a new node keeps. -/
theorem Search.Keeps.levels {P : R → List α → List α → Prop}
    (hkeeps : Search.Keeps take start P) (horder : ∀ depth xs, (order depth xs).Perm xs)
    (hrefs : ∀ depth < max, ∀ x found z, z ∈ (take depth x found).2 ↔ step x z) {count : ℕ}
    (hcount : depth + count = max + 1) (hs : P s.found s.visited s.requests)
    (hvisited : ∀ x, x ∈ s.visited ↔ ∃ k < depth, PathTo step start k x)
    (hlevel : depth ≤ max → AtLevel step start depth (· ∈ s.visited) (· ∈ s.pending)) :
  P (s.levels take order count depth).found (s.levels take order count depth).visited
      (s.levels take order count depth).requests ∧
    ∀ x, x ∈ (s.levels take order count depth).visited ↔ Within step start max x
  := by
  induction count generalizing depth s with
  | zero =>
    cases hcount
    use hs
    intro x
    rw [Search.levels, hvisited]
    apply exists_congr
    intro k
    rw [Nat.lt_succ_iff]
  | succ count ih =>
    have hat := hlevel (by omega)
    rw [Search.levels]
    split_ifs with hempty
    · use hs
      intro x
      have hnone : ∀ x, x ∉ s.pending := by
        rw [List.isEmpty_iff.mp hempty]
        exact fun _ => List.not_mem_nil
      have hlast := hat.of_nothing hnone (show depth ≤ max + 1 by omega)
      rw [hlast.visited_iff]
      apply exists_congr
      intro k
      rw [Nat.lt_succ_iff]
    · apply ih (by omega)
      · exact hkeeps.level horder hat hs
      · intro x
        rw [Search.mem_level horder]
        exact hat.visited_succ x
      · exact fun hle => hat.level horder (hrefs depth (by omega))

/-- A search from a node visits the nodes within some distance, each once, and keeps what every
visit of a new node keeps. -/
theorem Search.Keeps.search {P : R → List α → List α → Prop}
    (hkeeps : Search.Keeps take start P) (horder : ∀ depth xs, (order depth xs).Perm xs)
    (hrefs : ∀ depth < max, ∀ x found z, z ∈ (take depth x found).2 ↔ step x z) {found : R}
    (hs : P found [] []) :
  P ((Search.start found start).levels take order (max + 1) 0).found
      ((Search.start found start).levels take order (max + 1) 0).visited
      ((Search.start found start).levels take order (max + 1) 0).requests ∧
    ∀ x, x ∈ ((Search.start found start).levels take order (max + 1) 0).visited ↔
      Within step start max x
  := by
  have hvisited : ∀ x, x ∈ (Search.start found start).visited ↔
      ∃ k < 0, PathTo step start k x := by
    intro x
    exact ⟨fun h => absurd h List.not_mem_nil, fun ⟨_, hk, _⟩ => absurd hk (Nat.not_lt_zero _)⟩
  have hat : AtLevel step start 0 (· ∈ (Search.start found start).visited)
      (· ∈ (Search.start found start).pending) :=
    ⟨hvisited, fun x hx => List.mem_singleton.mp hx, fun x hx => .inl (List.mem_singleton.mpr hx)⟩
  exact hkeeps.levels horder hrefs (Nat.zero_add _) hs hvisited fun _ => hat

end Search

end Logic
