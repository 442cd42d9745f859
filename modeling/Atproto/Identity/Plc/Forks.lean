import Atproto.Identity.Plc.Chain
import Mathlib.Data.List.Dedup
import Mathlib.Data.List.Nodup
import Mathlib.Data.List.Sort

/-!
# Forks of chains

Operations that name the same previous operation compete at a fork.  The earliest of them is chosen,
unless a later one that is signed by a rotation key of higher priority comes within the recovery
window.  The chain that follows the choices from the genesis operation on is validated.
-/

namespace Atproto.Identity.Plc

open Atproto.Dasl Atproto.Repo Logic

/-- An operation with the instant at which it was received, in nanoseconds. -/
structure OperationWithTimestamp where
  operation : Operation
  timestamp : Int

/-- An operation at a fork, with the index of the rotation key that signed it. -/
structure Competitor where
  operation : Operation
  timestamp : Int
  keyIndex : Nat

/-- The operations that name the same previous operation. -/
structure ForkPoint where
  prevCid : Text
  operations : List Competitor

/-- 72 hours in nanoseconds. -/
def recoveryWindow : Int := 259200000000000

/-- The difference is less than 72 hours and not negative. -/
def isWithinRecoveryWindow (forkTimestamp currentTimestamp : Int) : Bool :=
  decide (currentTimestamp - forkTimestamp < recoveryWindow) &&
    decide (0 ≤ currentTimestamp - forkTimestamp)

/-! ### The choice at a fork -/

/-- The competing operation replaces the one that has been chosen. -/
def Competitor.replaces (canonical competing : Competitor) : Bool :=
  decide (competing.keyIndex < canonical.keyIndex) &&
    (decide (competing.timestamp - canonical.timestamp ≤ recoveryWindow) &&
      decide (0 ≤ competing.timestamp - canonical.timestamp))

/-- Go through the later operations. -/
def chooseFrom (canonical : Competitor) : List Competitor → Competitor
  | [] => canonical
  | competing :: later =>
    chooseFrom (if canonical.replaces competing then competing else canonical) later

/-- The competing operations as they were received. -/
def byTime (operations : List Competitor) : List Competitor :=
  operations.mergeSort fun a b => decide (a.timestamp ≤ b.timestamp)

/-- The operation that is chosen at a fork. -/
def ForkPoint.resolve (fork : ForkPoint) : Except PlcDidError Operation :=
  match fork.operations with
  | [] => .error (.forkResolutionError "Fork point has no operations")
  | [only] => .ok only.operation
  | _ =>
    match byTime fork.operations with
    | [] => .error (.forkResolutionError "Fork point has no operations")
    | first :: later => .ok (chooseFrom first later).operation

/-! ### The chain -/

/-- The state after an operation, without checks. -/
def replay : Operation → Except PlcDidError PlcState
  | .plcOperation rotationKeys verificationMethods alsoKnownAs services _ _ =>
    .ok { rotationKeys, verificationMethods, alsoKnownAs, services }
  | .plcTombstone _ _ => .ok .new
  | .legacyCreate _ _ _ _ _ _ =>
    .error (.invalidOperationType "Legacy create operations not fully supported")

/-- An operation in the format of before. -/
def Operation.isLegacy : Operation → Bool
  | .legacyCreate _ _ _ _ _ _ => true
  | _ => false

/-- The operations that name a CID, as they are listed. -/
def competing (prev : Text) (ops : List OperationWithTimestamp) : List OperationWithTimestamp :=
  ops.filter fun op => decide (op.operation.prev = some prev)

/-- The operation with a CID; the last one stays in the map. -/
def lookupOperation (map : List (Text × Operation)) (cid : Text) : Option Operation :=
  (map.reverse.find? fun entry => decide (entry.1 = cid)).map Prod.snd

section Builder

variable (library : Library)

/-- Replay the list up to the operation with a CID. -/
def getStateFrom (target : Text) (state : PlcState) :
    List OperationWithTimestamp → Except PlcDidError PlcState
  | [] => .ok state
  | op :: ops => do
    let state ← replay op.operation
    let cid ← op.operation.cid library
    if cid = target then .ok state else getStateFrom target state ops

/-- The state at an operation. -/
def getStateAtOperation (ops : List OperationWithTimestamp) (target : Operation) :
    Except PlcDidError PlcState := do
  let cid ← target.cid library
  getStateFrom library cid .new ops

/-- The index of the first key that the signature verifies under. -/
def keyIndexFrom (operation : Operation) (index : Nat) : List Text → Except PlcDidError Nat
  | [] => .error .signatureVerificationFailed
  | key :: keys => do
    let publicKey ← verifyingKey library key
    if (operation.verify library [publicKey]).isOk then .ok index
    else keyIndexFrom operation (index + 1) keys

/-- The index of the rotation key that signed an operation. -/
def findSigningKeyIndex (operation : Operation) (state : PlcState) : Except PlcDidError Nat :=
  if state.rotationKeys.isEmpty then
    .error (.invalidRotationKeys "No rotation keys available for verification")
  else keyIndexFrom library operation 0 state.rotationKeys

/-- The operations by their CIDs. -/
def operationMap (ops : List OperationWithTimestamp) :
    Except PlcDidError (List (Text × Operation)) :=
  ops.mapM fun op => do
    let cid ← op.operation.cid library
    .ok (cid, op.operation)

/-- The state that a fork starts from. -/
def stateBefore (ops : List OperationWithTimestamp) : Option Operation → Except PlcDidError PlcState
  | some operation => getStateAtOperation library ops operation
  | none => .ok .new

/-- An operation as it competes at a fork. -/
def addOperation (ops : List OperationWithTimestamp) (prevOp : Option Operation)
    (op : OperationWithTimestamp) : Except PlcDidError Competitor := do
  let state ← stateBefore library ops prevOp
  let keyIndex ← findSigningKeyIndex library op.operation state
  .ok ⟨op.operation, op.timestamp, keyIndex⟩

/-- The fork at a CID. -/
def forkPoint (ops : List OperationWithTimestamp) (map : List (Text × Operation)) (prev : Text) :
    Except PlcDidError ForkPoint := do
  let operations ← (competing prev ops).mapM (addOperation library ops (lookupOperation map prev))
  .ok ⟨prev, operations⟩

/-- The forks, in the order in which a hash map gives the CIDs that are named. -/
def forkPoints (order : List Text) (ops : List OperationWithTimestamp)
    (map : List (Text × Operation)) : Except PlcDidError (List ForkPoint) :=
  (order.filter fun prev => decide (1 < (competing prev ops).length)).mapM
    (forkPoint library ops map)

/-- The operation that comes after the one with a CID, if there is one. -/
def nextOperation (ops : List OperationWithTimestamp) (forks : List ForkPoint) (current : Text) :
    Except PlcDidError (Option Operation) :=
  match forks.find? fun fork => decide (fork.prevCid = current) with
  | some fork => fork.resolve.map some
  | none =>
    match competing current ops with
    | [] => .ok none
    | [op] => .ok (some op.operation)
    | _ => .error (.forkResolutionError "Unexpected multiple operations without fork point")

/-- The chain after the operation with a CID; nothing if it has not ended after some rounds. -/
def follow (ops : List OperationWithTimestamp) (forks : List ForkPoint) :
    Nat → Text → Option (Except PlcDidError (List Operation))
  | 0, _ => none
  | fuel + 1, current =>
    match nextOperation ops forks current with
    | .error e => some (.error e)
    | .ok none => some (.ok [])
    | .ok (some operation) =>
      match operation.cid library with
      | .error e => some (.error e)
      | .ok cid =>
        (follow ops forks fuel cid).map fun rest => rest.map fun rest => operation :: rest

/-- The chain from the genesis operation to the tip. -/
def build (order : List Text) (ops : List OperationWithTimestamp) :
    Option (Except PlcDidError (List Operation)) :=
  if ops.isEmpty then some (.error .emptyChain)
  else
    match operationMap library ops with
    | .error e => some (.error e)
    | .ok map =>
      match ops.find? fun op => op.operation.isGenesis with
      | none => some (.error .firstOperationNotGenesis)
      | some genesis =>
        match forkPoints library order ops map with
        | .error e => some (.error e)
        | .ok forks =>
          match genesis.operation.cid library with
          | .error e => some (.error e)
          | .ok cid => (follow library ops forks (ops.length + 1) cid).map fun rest =>
            rest.map fun rest => genesis.operation :: rest

/-- Validate a chain with forks. -/
def validateChainWithForks (order : List Text) (operations : List Operation)
    (timestamps : List Int) : Option (Except PlcDidError PlcState) :=
  if operations.length ≠ timestamps.length then
    some (.error (.chainValidationFailed "Operations and timestamps length mismatch"))
  else if operations.isEmpty then some (.error .emptyChain)
  else
    (build library order (List.zipWith OperationWithTimestamp.mk operations timestamps)).map
      fun chain => chain.bind (validateChain library)

/-- Validate a list of operations with their timestamps. -/
def validateWithForks (order : List Text) (ops : List OperationWithTimestamp) :
    Option (Except PlcDidError PlcState) :=
  validateChainWithForks library order (ops.map (·.operation)) (ops.map (·.timestamp))

/-! ### The recovery rule -/

/-- An operation takes the place of an earlier choice: it is the first later one within the
recovery window that is signed by a key of higher priority. -/
structure TakesOver (operations : List Competitor) (canonical competing : Competitor) : Prop where
  mem : competing ∈ operations
  time : canonical.timestamp < competing.timestamp
  key : competing.keyIndex < canonical.keyIndex
  window : isWithinRecoveryWindow canonical.timestamp competing.timestamp = true
  first : ∀ other ∈ operations, canonical.timestamp < other.timestamp →
    other.keyIndex < canonical.keyIndex →
    isWithinRecoveryWindow canonical.timestamp other.timestamp = true →
    competing.timestamp ≤ other.timestamp

/-- A choice at a fork: the earliest operation, or one that takes the place of an earlier choice. -/
inductive Chosen (operations : List Competitor) : Competitor → Prop where
  | earliest {first : Competitor} (hmem : first ∈ operations)
      (hfirst : ∀ other ∈ operations, first.timestamp ≤ other.timestamp) : Chosen operations first
  | replaced {canonical competing : Competitor} (hcanonical : Chosen operations canonical)
      (htakes : TakesOver operations canonical competing) : Chosen operations competing

/-- No later operation that is signed by a key of higher priority is within the window. -/
def Unbeaten (operations : List Competitor) (chosen : Competitor) : Prop :=
  ∀ later ∈ operations, chosen.timestamp < later.timestamp → later.keyIndex < chosen.keyIndex →
    isWithinRecoveryWindow chosen.timestamp later.timestamp = false

/-- No operation of higher priority comes exactly at the end of the window of the last choice. -/
def Punctual (operations : List Competitor) : Prop :=
  ∀ a ∈ operations, ∀ b ∈ operations, Chosen operations a → Unbeaten operations a →
    b.keyIndex < a.keyIndex → b.timestamp - a.timestamp ≠ recoveryWindow

/-- The CID of an operation that has one. -/
def cidOf (operation : Operation) : Text := (operation.cid library).toOption.getD .empty

/-- The state after the operation with a CID. -/
def stateNamed (ops : List OperationWithTimestamp) (prev : Text) : Except PlcDidError PlcState :=
  match ops.find? fun op => decide (cidOf library op.operation = prev) with
  | some op => replay op.operation
  | none => .ok .new

/-- The index of the key of the operation with a CID that signed another operation. -/
def indexAt (ops : List OperationWithTimestamp) (prev : Text) (operation : Operation) :
    Except PlcDidError Nat :=
  (stateNamed library ops prev).bind (findSigningKeyIndex library operation)

/-- An operation as it competes at a fork, when it is signed. -/
def entryOf (ops : List OperationWithTimestamp) (prev : Text) (op : OperationWithTimestamp) :
    Competitor :=
  ⟨op.operation, op.timestamp, (indexAt library ops prev op.operation).toOption.getD 0⟩

/-- The operations that compete at a fork. -/
def entries (ops : List OperationWithTimestamp) (prev : Text) : List Competitor :=
  (competing prev ops).map (entryOf library ops prev)

/-- At a fork the operation after another one follows the recovery rule. -/
def Recovers (ops : List OperationWithTimestamp) (current next : Operation) : Prop :=
  1 < (competing (cidOf library current) ops).length →
    ∃ chosen, Chosen (entries library ops (cidOf library current)) chosen ∧
      Unbeaten (entries library ops (cidOf library current)) chosen ∧ chosen.operation = next

/-- The CIDs that are named, in some order. -/
structure Iterates (order : List Text) (ops : List OperationWithTimestamp) : Prop where
  nodup : order.Nodup
  mem_iff : ∀ prev, prev ∈ order ↔ ∃ op ∈ ops, op.operation.prev = some prev

/-- Operations with distinct CIDs and timestamps, and one genesis. -/
structure WellPosed (ops : List OperationWithTimestamp) : Prop where
  cids : ∀ op ∈ ops, ∃ cid, op.operation.cid library = .ok cid
  distinct : ops.Pairwise fun a b => a.operation.cid library ≠ b.operation.cid library
  timestamps : ops.Pairwise fun a b => a.timestamp ≠ b.timestamp
  genesis : ∃ op ∈ ops, op.operation.isGenesis = true
  oneGenesis : ∀ a ∈ ops, ∀ b ∈ ops, a.operation.isGenesis = true → b.operation.isGenesis = true →
    a = b

/-- The forks are resolved in one way, and so are those of a chain; and the rule is followed. -/
structure OrderFree (ops : List OperationWithTimestamp) : Prop where
  same : ∃ result, ∀ (ops' : List OperationWithTimestamp) order, ops'.Perm ops →
    Iterates order ops' → validateWithForks library order ops' = some result
  accepts : ∀ (chain : List OperationWithTimestamp) state, chain.Perm ops →
    validateChain library (chain.map (·.operation)) = .ok state →
    ∀ (ops' : List OperationWithTimestamp) order, ops'.Perm ops → Iterates order ops' →
      validateWithForks library order ops' = some (.ok state)
  recovers : ∀ (ops' : List OperationWithTimestamp) order chain, ops'.Perm ops →
    Iterates order ops' → build library order ops' = some (.ok chain) → List.IsChain (Recovers library ops') chain

/-! ### When the result is determined -/

/-- What the replay of a legacy operation fails with. -/
def legacyError : PlcDidError :=
  .invalidOperationType "Legacy create operations not fully supported"

/-- At some fork no signing key is found for an operation. -/
def Failure (ops : List OperationWithTimestamp) (error : PlcDidError) : Prop :=
  ∃ prev, 1 < (competing prev ops).length ∧
    ∃ op ∈ competing prev ops, indexAt library ops prev op.operation = .error error

/-- There is a legacy operation, and the operation with a CID is there and is another one. -/
def DisturbedAt (ops : List OperationWithTimestamp) (prev : Text) : Prop :=
  (∃ op ∈ ops, op.operation.isLegacy = true) ∧
    ∃ target ∈ ops, cidOf library target.operation = prev ∧ target.operation.isLegacy = false

/-- A legacy operation may be listed before an operation at which there is a fork. -/
def Disturbed (ops : List OperationWithTimestamp) : Prop :=
  ∃ prev, 1 < (competing prev ops).length ∧ DisturbedAt library ops prev

/-- One operation comes after another one by the recovery rule. -/
structure Continues (ops : List OperationWithTimestamp) (current next : Operation) : Prop where
  links : ∃ op ∈ competing (cidOf library current) ops, op.operation = next
  recovers : Recovers library ops current next

/-- The operation is on the chain that the recovery rule gives. -/
inductive OnChain (ops : List OperationWithTimestamp) : Operation → Prop where
  | genesis {op : OperationWithTimestamp} (hmem : op ∈ ops)
      (hgenesis : op.operation.isGenesis = true) : OnChain ops op.operation
  | next {current next : Operation} (hcurrent : OnChain ops current)
      (hnext : Continues library ops current next) : OnChain ops next

/-- The chain that the recovery rule gives, from the genesis operation to the tip. -/
structure Canonical (ops : List OperationWithTimestamp) (chain : List Operation) : Prop where
  genesis : ∃ op ∈ ops, op.operation.isGenesis = true ∧ chain.head? = some op.operation
  continues : List.IsChain (Continues library ops) chain
  tip : ∀ last, chain.getLast? = some last → competing (cidOf library last) ops = []

/-- All failures to find a signing key are alike.  When a legacy operation may be listed before a
fork they are those of a legacy operation, and without a failure the chain is refused like one. -/
structure Determined (ops : List OperationWithTimestamp) : Prop where
  alike : ∀ error error', Failure library ops error → Failure library ops error' → error = error'
  legacy : Disturbed library ops → ∀ error, Failure library ops error → error = legacyError
  refused : Disturbed library ops → (∀ error, ¬ Failure library ops error) →
    ∀ chain, Canonical library ops chain → validateChain library chain = .error legacyError

/-- When all competing operations are signed, none of them comes exactly at the end of the window
of the choice at a fork on the chain that the rule gives. -/
def InTime (ops : List OperationWithTimestamp) : Prop :=
  (∀ error, ¬ Failure library ops error) → ∀ current, OnChain library ops current →
    Punctual (entries library ops (cidOf library current))

end Builder

/-! ### Lists -/

section Lists

variable {ε α β : Type}

theorem mapM_of_ok {f : α → Except ε β} {g : α → β} {xs : List α} (h : ∀ x ∈ xs, f x = .ok (g x)) :
  xs.mapM f = .ok (xs.map g)
  := by
  induction xs with
  | nil => rfl
  | cons x xs ih =>
    obtain ⟨hx, hxs⟩ := List.forall_mem_cons.mp h
    rw [List.mapM_cons, hx, ih hxs]
    rfl

/-- When all errors are alike, a map with an error has that error. -/
theorem mapM_of_error {f : α → Except ε β} {error : ε} {xs : List α}
    (halike : ∀ x ∈ xs, ∀ e, f x = .error e → e = error) (h : ∃ x ∈ xs, ∃ e, f x = .error e) :
  xs.mapM f = .error error
  := by
  induction xs with
  | nil =>
    obtain ⟨x, hx, -⟩ := h
    cases hx
  | cons x xs ih =>
    obtain ⟨hx, hxs⟩ := List.forall_mem_cons.mp halike
    rw [List.mapM_cons]
    cases hfx : f x with
    | error e =>
      rw [hx e hfx]
      rfl
    | ok y =>
      obtain ⟨x', hmem, e, he⟩ := h
      obtain rfl | hmem := List.mem_cons.mp hmem
      · rw [hfx] at he
        cases he
      · rw [ih hxs ⟨x', hmem, e, he⟩]
        rfl

/-- A map with an error has the error of one of the elements. -/
theorem exists_mapM_error {f : α → Except ε β} {xs : List α} (h : ∃ x ∈ xs, ∃ e, f x = .error e) :
  ∃ x ∈ xs, ∃ e, f x = .error e ∧ xs.mapM f = .error e
  := by
  induction xs with
  | nil =>
    obtain ⟨x, hx, -⟩ := h
    cases hx
  | cons x xs ih =>
    cases hfx : f x with
    | error e =>
      refine ⟨x, List.mem_cons_self, e, hfx, ?_⟩
      rw [List.mapM_cons, hfx]
      rfl
    | ok y =>
      obtain ⟨x', hmem, e, he⟩ := h
      rcases List.mem_cons.mp hmem with rfl | hmem
      · rw [hfx] at he
        cases he
      · obtain ⟨x'', hmem', e', he', hall⟩ := ih ⟨x', hmem, e, he⟩
        refine ⟨x'', List.mem_cons_of_mem _ hmem', e', he', ?_⟩
        rw [List.mapM_cons, hfx, hall]
        rfl

/-- A search that at most one element satisfies does not depend on the order. -/
theorem find?_perm {xs ys : List α} {p : α → Bool} (h : xs.Perm ys)
    (hunique : ∀ a ∈ xs, ∀ b ∈ xs, p a = true → p b = true → a = b) :
  xs.find? p = ys.find? p
  := by
  cases hys : ys.find? p with
  | none =>
    rw [List.find?_eq_none] at hys ⊢
    exact fun x hx => hys x (h.mem_iff.mp hx)
  | some y =>
    have hmem : y ∈ xs := h.mem_iff.mpr (List.mem_of_find?_eq_some hys)
    have hy : p y = true := List.find?_some hys
    cases hxs : xs.find? p with
    | none => exact absurd hy (List.find?_eq_none.mp hxs y hmem)
    | some x =>
      rw [hunique x (List.mem_of_find?_eq_some hxs) y hmem (List.find?_some hxs) hy]

theorem length_le_one {xs : List α} (hnodup : xs.Nodup) (h : ∀ a ∈ xs, ∀ b ∈ xs, a = b) :
  ¬ 1 < xs.length
  := by
  cases xs with
  | nil => exact Nat.not_lt_zero 1
  | cons a rest =>
    cases rest with
    | nil => exact Nat.lt_irrefl 1
    | cons b rest =>
      have heq := h a List.mem_cons_self b (List.mem_cons_of_mem _ List.mem_cons_self)
      rw [heq] at hnodup
      exact absurd List.mem_cons_self (List.nodup_cons.mp hnodup).1

theorem eq_nil_or_singleton {xs : List α} (h : ¬ 1 < xs.length) :
  xs = [] ∨ ∃ x, xs = [x]
  := by
  cases xs with
  | nil => exact Or.inl rfl
  | cons a rest =>
    cases rest with
    | nil => exact Or.inr ⟨a, rfl⟩
    | cons b rest => exact absurd (Nat.succ_lt_succ (Nat.succ_pos rest.length)) h

/-- Every element of a chain but the last one has a next one. -/
theorem exists_next_of_mem {R : α → α → Prop} {xs : List α} {x : α} (h : List.IsChain R xs)
    (hx : x ∈ xs) :
  xs.getLast? = some x ∨ ∃ y ∈ xs, R x y
  := by
  induction xs with
  | nil => cases hx
  | cons a xs ih =>
    cases xs with
    | nil =>
      rw [List.mem_singleton.mp hx]
      exact Or.inl rfl
    | cons b xs =>
      obtain ⟨hab, hrest⟩ := List.isChain_cons_cons.mp h
      rcases List.mem_cons.mp hx with rfl | hx
      · exact Or.inr ⟨b, List.mem_cons_of_mem _ List.mem_cons_self, hab⟩
      · rw [List.getLast?_cons_cons]
        refine (ih hrest hx).imp_right ?_
        rintro ⟨y, hy, hxy⟩
        exact ⟨y, List.mem_cons_of_mem _ hy, hxy⟩

theorem isChain_and {R S : α → α → Prop} {xs : List α} (hR : List.IsChain R xs)
    (hS : List.IsChain S xs) :
  List.IsChain (fun a b => R a b ∧ S a b) xs
  := by
  induction xs with
  | nil => exact .nil
  | cons a xs ih =>
    cases xs with
    | nil => exact .singleton a
    | cons b xs =>
      obtain ⟨hab, hrest⟩ := List.isChain_cons_cons.mp hR
      obtain ⟨hab', hrest'⟩ := List.isChain_cons_cons.mp hS
      exact .cons_cons ⟨hab, hab'⟩ (ih hrest hrest')

end Lists

/-! ### Choices -/

section Choices

variable {operations processed later : List Competitor} {canonical competing : Competitor}

theorem isWithinRecoveryWindow_iff {a b : Int} :
  isWithinRecoveryWindow a b = true ↔ b - a < recoveryWindow ∧ 0 ≤ b - a
  := by
  rw [isWithinRecoveryWindow, Bool.and_eq_true, decide_eq_true_iff, decide_eq_true_iff]

theorem Competitor.replaces_iff :
  canonical.replaces competing = true ↔ competing.keyIndex < canonical.keyIndex ∧
    competing.timestamp - canonical.timestamp ≤ recoveryWindow ∧
    0 ≤ competing.timestamp - canonical.timestamp
  := by
  rw [Competitor.replaces, Bool.and_eq_true, Bool.and_eq_true, decide_eq_true_iff,
    decide_eq_true_iff, decide_eq_true_iff]

/-- Every later operation that is signed by a key of higher priority comes after the window. -/
def Standing (operations : List Competitor) (chosen : Competitor) : Prop :=
  ∀ later ∈ operations, chosen.timestamp < later.timestamp → later.keyIndex < chosen.keyIndex →
    recoveryWindow < later.timestamp - chosen.timestamp

theorem not_within_of_lt {a b : Int} (h : recoveryWindow ≤ b - a) :
  isWithinRecoveryWindow a b = false
  := by
  cases hwithin : isWithinRecoveryWindow a b with
  | false => rfl
  | true => exact absurd (isWithinRecoveryWindow_iff.mp hwithin).1 (not_lt_of_ge h)

theorem Standing.unbeaten (h : Standing operations canonical) :
  Unbeaten operations canonical
  := fun later hlater htime hkey => not_within_of_lt (le_of_lt (h later hlater htime hkey))

/-- One more operation is looked at. -/
theorem Standing.step (h : Standing processed canonical)
    (hbefore : ∀ y ∈ processed, y.timestamp < competing.timestamp)
    (hcanonical : canonical ∈ processed) :
  Standing (processed ++ [competing])
    (if canonical.replaces competing then competing else canonical)
  := by
  intro y hy htime hkey
  by_cases hreplaces : canonical.replaces competing = true
  · rw [if_pos hreplaces] at htime
    rcases List.mem_append.mp hy with hy | hy
    · exact absurd htime (not_lt_of_gt (hbefore y hy))
    · rw [List.mem_singleton.mp hy] at htime
      exact absurd htime (lt_irrefl _)
  · rw [if_neg hreplaces] at htime hkey ⊢
    rcases List.mem_append.mp hy with hy | hy
    · exact h y hy htime hkey
    · rw [List.mem_singleton.mp hy] at hkey ⊢
      by_contra hle
      have hlt := hbefore canonical hcanonical
      exact hreplaces (Competitor.replaces_iff.mpr ⟨hkey, not_lt.mp hle, by omega⟩)

/-- The operations before the one that is looked at are earlier. -/
theorem lt_of_sorted {x : Competitor}
    (hsorted : (processed ++ x :: later).Pairwise fun a b => a.timestamp < b.timestamp) :
  (∀ y ∈ processed, y.timestamp < x.timestamp) ∧ ∀ y ∈ later, x.timestamp < y.timestamp
  := by
  obtain ⟨-, hrest, hcross⟩ := List.pairwise_append.mp hsorted
  exact ⟨fun y hy => hcross y hy x List.mem_cons_self, (List.pairwise_cons.mp hrest).1⟩

theorem append_cons_eq (x : Competitor) :
  processed ++ x :: later = (processed ++ [x]) ++ later
  := by
  rw [List.append_assoc, List.singleton_append]

theorem mem_step {x : Competitor} (h : canonical ∈ processed) :
  (if canonical.replaces x then x else canonical) ∈ processed ++ [x]
  := by
  by_cases hreplaces : canonical.replaces x = true
  · rw [if_pos hreplaces]
    exact List.mem_append_right _ List.mem_cons_self
  · rw [if_neg hreplaces]
    exact List.mem_append_left _ h

/-- No later operation of higher priority comes within the window of the last choice. -/
theorem chooseFrom_standing
    (hsorted : (processed ++ later).Pairwise fun a b => a.timestamp < b.timestamp)
    (hprocessed : canonical ∈ processed) (hstanding : Standing processed canonical) :
  Standing (processed ++ later) (chooseFrom canonical later)
  := by
  induction later generalizing canonical processed with
  | nil =>
    rw [List.append_nil]
    exact hstanding
  | cons x later ih =>
    have hbefore := (lt_of_sorted hsorted).1
    rw [append_cons_eq] at hsorted ⊢
    exact ih hsorted (mem_step hprocessed) (hstanding.step hbefore hprocessed)

/-- The choices are made by the rule, when no operation of higher priority comes exactly at the end
of the window. -/
theorem chooseFrom_chosen (hpunctual : Punctual (processed ++ later))
    (hsorted : (processed ++ later).Pairwise fun a b => a.timestamp < b.timestamp)
    (hprocessed : canonical ∈ processed) (hstanding : Standing processed canonical)
    (hchosen : Chosen (processed ++ later) canonical) :
  Chosen (processed ++ later) (chooseFrom canonical later)
  := by
  induction later generalizing canonical processed with
  | nil => exact hchosen
  | cons x later ih =>
    obtain ⟨hbefore, hafter⟩ := lt_of_sorted hsorted
    have hx : x ∈ processed ++ x :: later := List.mem_append_right _ List.mem_cons_self
    -- an operation of higher priority that was looked at comes after the window
    have hlater : ∀ y ∈ processed ++ x :: later, canonical.timestamp < y.timestamp →
        y.keyIndex < canonical.keyIndex →
        recoveryWindow < y.timestamp - canonical.timestamp ∨ x.timestamp ≤ y.timestamp := by
      intro y hy htime hkey
      rcases List.mem_append.mp hy with hy | hy
      · exact Or.inl (hstanding y hy htime hkey)
      · rcases List.mem_cons.mp hy with rfl | hy
        · exact Or.inr (le_refl _)
        · exact Or.inr (le_of_lt (hafter y hy))
    have hnext : Chosen (processed ++ x :: later)
        (if canonical.replaces x then x else canonical) := by
      by_cases hreplaces : canonical.replaces x = true
      · rw [if_pos hreplaces]
        obtain ⟨hkey, hle, hnonneg⟩ := Competitor.replaces_iff.mp hreplaces
        have hin : x.timestamp - canonical.timestamp < recoveryWindow := by
          apply lt_of_le_of_ne hle
          intro heq
          refine hpunctual canonical (List.mem_append_left _ hprocessed) x hx hchosen ?_ hkey heq
          intro y hy htime hykey
          apply not_within_of_lt
          rcases hlater y hy htime hykey with h | h
          · exact le_of_lt h
          · omega
        refine hchosen.replaced ⟨hx, hbefore canonical hprocessed, hkey,
          isWithinRecoveryWindow_iff.mpr ⟨hin, hnonneg⟩, ?_⟩
        intro y hy htime hykey hwindow
        rcases hlater y hy htime hykey with h | h
        · exact absurd (isWithinRecoveryWindow_iff.mp hwindow).1 (not_lt_of_gt h)
        · exact h
      · rw [if_neg hreplaces]
        exact hchosen
    rw [append_cons_eq] at hpunctual hsorted hnext ⊢
    exact ih hpunctual hsorted (mem_step hprocessed) (hstanding.step hbefore hprocessed) hnext

theorem Chosen.mem (h : Chosen operations canonical) :
  canonical ∈ operations
  := by
  cases h with
  | earliest hmem hfirst => exact hmem
  | replaced hcanonical htakes => exact htakes.mem

/-- Two choices are the same one, or one of them is replaced not later than the other one comes. -/
theorem chosen_compare (hdistinct : operations.Pairwise fun a b => a.timestamp ≠ b.timestamp)
    {a b : Competitor} (ha : Chosen operations a) (hb : Chosen operations b) :
  a = b ∨ (∃ x, TakesOver operations a x ∧ x.timestamp ≤ b.timestamp) ∨
    ∃ x, TakesOver operations b x ∧ x.timestamp ≤ a.timestamp
  := by
  have heq : ∀ {x y : Competitor}, x ∈ operations → y ∈ operations →
      x.timestamp = y.timestamp → x = y := by
    intro x y hx hy htime
    by_contra hne
    have : Std.Symm fun a b : Competitor => a.timestamp ≠ b.timestamp := ⟨fun _ _ => Ne.symm⟩
    exact hdistinct.forall hx hy hne htime
  induction ha generalizing b with
  | earliest hmem hfirst =>
    induction hb with
    | earliest hmem' hfirst' =>
      exact Or.inl (heq hmem hmem' (le_antisymm (hfirst _ hmem') (hfirst' _ hmem)))
    | @replaced d b hd htakes ih =>
      right
      left
      rcases ih with rfl | ⟨x, hx, hle⟩ | ⟨x, hx, hle⟩
      · exact ⟨b, htakes, le_refl _⟩
      · exact ⟨x, hx, le_trans hle (le_of_lt htakes.time)⟩
      · have := hfirst d hd.mem
        have := hx.time
        omega
  | @replaced d a hd htakes ih =>
    -- what comes after `d` comes after `a`, which takes its place
    have hafter : ∀ x, TakesOver operations d x → a.timestamp ≤ x.timestamp :=
      fun x hx => htakes.first x hx.mem hx.time hx.key hx.window
    induction hb with
    | @earliest b hmem' hfirst' =>
      right
      right
      rcases ih (.earliest hmem' hfirst') with rfl | ⟨x, hx, hle⟩ | ⟨x, hx, hle⟩
      · exact ⟨a, htakes, le_refl _⟩
      · have := hfirst' d hd.mem
        have := hx.time
        omega
      · exact ⟨x, hx, le_trans hle (le_of_lt htakes.time)⟩
    | @replaced f b hf htakes' ih' =>
      have hafter' : ∀ x, TakesOver operations f x → b.timestamp ≤ x.timestamp :=
        fun x hx => htakes'.first x hx.mem hx.time hx.key hx.window
      rcases ih' with rfl | ⟨x, hx, hle⟩ | ⟨x, hx, hle⟩
      · exact Or.inr (Or.inl ⟨b, htakes', le_refl _⟩)
      · exact Or.inr (Or.inl ⟨x, hx, le_trans hle (le_of_lt htakes'.time)⟩)
      · rcases ih (hf.replaced htakes') with rfl | ⟨y, hy, hle'⟩ | ⟨y, hy, hle'⟩
        · exact Or.inr (Or.inr ⟨a, htakes, le_refl _⟩)
        · have := hafter y hy
          have := hafter' x hx
          exact Or.inl (heq htakes.mem htakes'.mem (by omega))
        · exact Or.inr (Or.inr ⟨y, hy, le_trans hle' (le_of_lt htakes.time)⟩)

/-- The rule gives one choice. -/
theorem chosen_unique (hdistinct : operations.Pairwise fun a b => a.timestamp ≠ b.timestamp)
    {a b : Competitor} (ha : Chosen operations a) (hb : Chosen operations b)
    (hua : Unbeaten operations a) (hub : Unbeaten operations b) :
  a = b
  := by
  rcases chosen_compare hdistinct ha hb with h | ⟨x, hx, -⟩ | ⟨x, hx, -⟩
  · exact h
  · exact absurd hx.window (Bool.eq_false_iff.mp (hua x hx.mem hx.time hx.key))
  · exact absurd hx.window (Bool.eq_false_iff.mp (hub x hx.mem hx.time hx.key))

theorem chooseFrom_mem (canonical : Competitor) (later : List Competitor) :
  chooseFrom canonical later ∈ canonical :: later
  := by
  induction later generalizing canonical with
  | nil => exact List.mem_cons_self
  | cons x later ih =>
    rw [chooseFrom]
    obtain heq | hmem := List.mem_cons.mp (ih (if canonical.replaces x then x else canonical))
    · rw [heq]
      by_cases hreplaces : canonical.replaces x = true
      · rw [if_pos hreplaces]
        exact List.mem_cons_of_mem _ List.mem_cons_self
      · rw [if_neg hreplaces]
        exact List.mem_cons_self
    · exact List.mem_cons_of_mem _ (List.mem_cons_of_mem _ hmem)

theorem byTime_perm (operations : List Competitor) :
  (byTime operations).Perm operations
  := List.mergeSort_perm operations _

theorem pairwise_byTime (h : operations.Pairwise fun a b => a.timestamp ≠ b.timestamp) :
  (byTime operations).Pairwise fun a b => a.timestamp < b.timestamp
  := by
  have hle : (byTime operations).Pairwise fun a b => decide (a.timestamp ≤ b.timestamp) = true := by
    apply List.pairwise_mergeSort
    · intro a b c hab hbc
      exact decide_eq_true (le_trans (of_decide_eq_true hab) (of_decide_eq_true hbc))
    · intro a b
      rw [Bool.or_eq_true, decide_eq_true_iff, decide_eq_true_iff]
      exact le_total _ _
  have hne : (byTime operations).Pairwise fun a b => a.timestamp ≠ b.timestamp :=
    h.perm (byTime_perm operations).symm Ne.symm
  exact (hle.and hne).imp fun hboth => lt_of_le_of_ne (of_decide_eq_true hboth.1) hboth.2

theorem exists_byTime (h : operations ≠ []) :
  ∃ first later, byTime operations = first :: later
  := by
  cases hbyTime : byTime operations with
  | nil =>
    have hperm := byTime_perm operations
    rw [hbyTime] at hperm
    exact absurd hperm.nil_eq.symm h
  | cons first later => exact ⟨first, later, rfl⟩

theorem ForkPoint.resolve_eq {fork : ForkPoint} {first : Competitor}
    (h : byTime fork.operations = first :: later) :
  fork.resolve = .ok (chooseFrom first later).operation
  := by
  rw [ForkPoint.resolve]
  cases hops : fork.operations with
  | nil =>
    have hnil : byTime [] = [] := List.perm_nil.mp (byTime_perm [])
    rw [hops, hnil] at h
    cases h
  | cons a rest =>
    rw [hops] at h
    cases rest with
    | nil =>
      have hsingle : byTime [a] = [a] := List.perm_singleton.mp (byTime_perm [a])
      rw [hsingle] at h
      cases h
      rfl
    | cons b rest =>
      dsimp only
      rw [h]

variable {operations' : List Competitor}

theorem TakesOver.congr (hmem : ∀ x, x ∈ operations ↔ x ∈ operations')
    (h : TakesOver operations canonical competing) :
  TakesOver operations' canonical competing
  := ⟨(hmem _).mp h.mem, h.time, h.key, h.window, fun x hx => h.first x ((hmem x).mpr hx)⟩

/-- The choices do not depend on the order. -/
theorem Chosen.congr (hmem : ∀ x, x ∈ operations ↔ x ∈ operations')
    (h : Chosen operations canonical) :
  Chosen operations' canonical
  := by
  induction h with
  | earliest hin hfirst =>
    exact .earliest ((hmem _).mp hin) fun x hx => hfirst x ((hmem x).mpr hx)
  | replaced hcanonical htakes ih => exact ih.replaced (htakes.congr hmem)

theorem Unbeaten.congr (hmem : ∀ x, x ∈ operations ↔ x ∈ operations')
    (h : Unbeaten operations canonical) :
  Unbeaten operations' canonical
  := fun x hx => h x ((hmem x).mpr hx)

theorem Punctual.congr (h : Punctual operations)
    (hmem : ∀ x, x ∈ operations ↔ x ∈ operations') :
  Punctual operations'
  := by
  intro a ha b hb hchosen hunbeaten
  exact h a ((hmem a).mpr ha) b ((hmem b).mpr hb) (hchosen.congr fun x => (hmem x).symm)
    (hunbeaten.congr fun x => (hmem x).symm)

/-- What is chosen at a fork is not beaten, and it is chosen by the rule when no operation of higher
priority comes exactly at the end of the window. -/
theorem ForkPoint.resolve_spec {prev : Text} (hne : operations ≠ [])
    (hdistinct : operations.Pairwise fun a b => a.timestamp ≠ b.timestamp) :
  ∃ chosen ∈ operations, (ForkPoint.mk prev operations).resolve = .ok chosen.operation ∧
    Standing operations chosen ∧ (Punctual operations → Chosen operations chosen)
  := by
  obtain ⟨first, later, hbyTime⟩ := exists_byTime hne
  have hperm := byTime_perm operations
  have hsorted := pairwise_byTime hdistinct
  rw [hbyTime] at hperm hsorted
  have hmem : ∀ x, x ∈ [first] ++ later ↔ x ∈ operations := fun x => hperm.mem_iff
  have hstanding : Standing [first] first := by
    intro later hlater htime
    rw [List.mem_singleton.mp hlater] at htime
    exact absurd htime (lt_irrefl _)
  have hearliest : Chosen ([first] ++ later) first := by
    refine .earliest List.mem_cons_self fun other hother => ?_
    rcases List.mem_cons.mp hother with rfl | hlater
    · exact le_refl _
    · exact le_of_lt ((List.pairwise_cons.mp hsorted).1 other hlater)
  have hsorted' : ([first] ++ later).Pairwise fun a b => a.timestamp < b.timestamp := hsorted
  refine ⟨chooseFrom first later, (hmem _).mp (chooseFrom_mem first later),
    ForkPoint.resolve_eq hbyTime, ?_, ?_⟩
  · intro x hx
    exact chooseFrom_standing hsorted' List.mem_cons_self hstanding x ((hmem x).mpr hx)
  · intro hpunctual
    apply Chosen.congr hmem
    exact chooseFrom_chosen (hpunctual.congr fun x => (hmem x).symm) hsorted' List.mem_cons_self
      hstanding hearliest

end Choices

end Atproto.Identity.Plc
