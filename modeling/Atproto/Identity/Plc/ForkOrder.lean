import Atproto.Identity.Plc.Forks

/-!
# Forks and the order of a list

The forks of a list are resolved in the same way in every order of it when all failures to find a
signing key are alike.  A legacy operation is an exception: it makes every fork fail at an operation
that is listed after it.  The chain that is followed is the one that the recovery rule gives, when no
operation of higher priority comes exactly at the end of the window of a choice on it.
-/

namespace Atproto.Identity.Plc

open Atproto.Dasl Atproto.Repo Logic

/-! ### Distinct operations -/

section Distinct

variable {library : Library} {ops ops' : List OperationWithTimestamp} {order : List Text}
  {prev : Text} {op : OperationWithTimestamp}

theorem mem_competing :
  op ∈ competing prev ops ↔ op ∈ ops ∧ op.operation.prev = some prev
  := by
  rw [competing, List.mem_filter, decide_eq_true_iff]

theorem competing_perm (hperm : ops'.Perm ops) (prev : Text) :
  (competing prev ops').Perm (competing prev ops)
  := hperm.filter _

theorem WellPosed.perm (h : WellPosed library ops) (hperm : ops'.Perm ops) :
  WellPosed library ops'
  := by
  refine ⟨fun op hop => h.cids op (hperm.mem_iff.mp hop), h.distinct.perm hperm.symm Ne.symm,
    h.timestamps.perm hperm.symm Ne.symm, ?_, ?_⟩
  · obtain ⟨op, hop, hgenesis⟩ := h.genesis
    exact ⟨op, hperm.mem_iff.mpr hop, hgenesis⟩
  · exact fun a ha b hb => h.oneGenesis a (hperm.mem_iff.mp ha) b (hperm.mem_iff.mp hb)

theorem WellPosed.cid_eq (h : WellPosed library ops) (hop : op ∈ ops) :
  op.operation.cid library = .ok (cidOf library op.operation)
  := by
  obtain ⟨cid, hcid⟩ := h.cids op hop
  rw [cidOf, hcid]
  rfl

theorem WellPosed.inj (h : WellPosed library ops) {a b : OperationWithTimestamp} (ha : a ∈ ops)
    (hb : b ∈ ops) (heq : cidOf library a.operation = cidOf library b.operation) :
  a = b
  := by
  by_contra hne
  have : Std.Symm fun a b : OperationWithTimestamp =>
    a.operation.cid library ≠ b.operation.cid library := ⟨fun _ _ => Ne.symm⟩
  apply h.distinct.forall ha hb hne
  rw [h.cid_eq ha, h.cid_eq hb, heq]

theorem WellPosed.nodup (h : WellPosed library ops) :
  ops.Nodup
  := h.distinct.imp fun hne heq => hne (by rw [heq])

theorem stateNamed_perm (h : WellPosed library ops) (hperm : ops'.Perm ops) (prev : Text) :
  stateNamed library ops' prev = stateNamed library ops prev
  := by
  have h' := h.perm hperm
  rw [stateNamed, stateNamed, find?_perm hperm]
  intro a ha b hb hpa hpb
  exact h'.inj ha hb ((of_decide_eq_true hpa).trans (of_decide_eq_true hpb).symm)

theorem indexAt_perm (h : WellPosed library ops) (hperm : ops'.Perm ops) (prev : Text)
    (operation : Operation) :
  indexAt library ops' prev operation = indexAt library ops prev operation
  := by
  rw [indexAt, indexAt, stateNamed_perm h hperm]

theorem entries_perm (h : WellPosed library ops) (hperm : ops'.Perm ops) (prev : Text) :
  (entries library ops' prev).Perm (entries library ops prev)
  := by
  have hentry : entryOf library ops' prev = entryOf library ops prev := by
    funext op
    rw [entryOf, entryOf, indexAt_perm h hperm]
  rw [entries, hentry]
  exact (competing_perm hperm prev).map _

theorem WellPosed.entries_distinct (h : WellPosed library ops) (prev : Text) :
  (entries library ops prev).Pairwise fun a b => a.timestamp ≠ b.timestamp
  := (h.timestamps.filter _).map _ fun _ _ hne => hne

/-- Competing operations have different operations. -/
theorem WellPosed.entries_inj (h : WellPosed library ops) {a b : Competitor}
    (ha : a ∈ entries library ops prev) (hb : b ∈ entries library ops prev)
    (heq : a.operation = b.operation) :
  a = b
  := by
  obtain ⟨op, hop, rfl⟩ := List.mem_map.mp ha
  obtain ⟨op', hop', rfl⟩ := List.mem_map.mp hb
  have hsame : op.operation = op'.operation := heq
  rw [h.inj (mem_competing.mp hop).1 (mem_competing.mp hop').1 (by rw [hsame])]

theorem Failure.perm (h : WellPosed library ops) (hperm : ops'.Perm ops) {error : PlcDidError}
    (hfailure : Failure library ops' error) :
  Failure library ops error
  := by
  obtain ⟨prev, hfork, op, hop, herror⟩ := hfailure
  rw [(competing_perm hperm prev).length_eq] at hfork
  rw [indexAt_perm h hperm] at herror
  exact ⟨prev, hfork, op, (competing_perm hperm prev).mem_iff.mp hop, herror⟩

theorem DisturbedAt.perm (hperm : ops'.Perm ops) (h : DisturbedAt library ops' prev) :
  DisturbedAt library ops prev
  := by
  obtain ⟨⟨op, hop, hlegacy⟩, target, htarget, hrest⟩ := h
  exact ⟨⟨op, hperm.mem_iff.mp hop, hlegacy⟩, target, hperm.mem_iff.mp htarget, hrest⟩

theorem Recovers.perm (h : WellPosed library ops) (hperm : ops'.Perm ops)
    {current next : Operation} (hrecovers : Recovers library ops' current next) :
  Recovers library ops current next
  := by
  intro hfork
  rw [← (competing_perm hperm _).length_eq] at hfork
  obtain ⟨chosen, hchosen, hunbeaten, hnext⟩ := hrecovers hfork
  have hmem := fun x => (entries_perm h hperm (cidOf library current)).mem_iff (a := x)
  exact ⟨chosen, hchosen.congr hmem, hunbeaten.congr hmem, hnext⟩

theorem Continues.perm (h : WellPosed library ops) (hperm : ops'.Perm ops)
    {current next : Operation} (hnext : Continues library ops' current next) :
  Continues library ops current next
  := by
  obtain ⟨op, hop, heq⟩ := hnext.links
  exact ⟨⟨op, (competing_perm hperm _).mem_iff.mp hop, heq⟩, hnext.recovers.perm h hperm⟩

theorem Canonical.perm (h : WellPosed library ops) (hperm : ops'.Perm ops)
    {chain : List Operation} (hchain : Canonical library ops' chain) :
  Canonical library ops chain
  := by
  obtain ⟨⟨op, hop, hgenesis⟩, hcontinues, htip⟩ := hchain
  refine ⟨⟨op, hperm.mem_iff.mp hop, hgenesis⟩,
    hcontinues.imp fun _ _ hnext => hnext.perm h hperm, ?_⟩
  intro last hlast
  have hnil := htip last hlast
  have hcompeting := competing_perm hperm (cidOf library last)
  rw [hnil] at hcompeting
  exact hcompeting.nil_eq.symm

theorem OnChain.perm (h : WellPosed library ops) (hperm : ops'.Perm ops) {current : Operation}
    (hcurrent : OnChain library ops' current) :
  OnChain library ops current
  := by
  induction hcurrent with
  | genesis hmem hgenesis => exact .genesis (hperm.mem_iff.mp hmem) hgenesis
  | next hcurrent hnext ih => exact ih.next (hnext.perm h hperm)

theorem InTime.perm (h : WellPosed library ops) (hperm : ops'.Perm ops)
    (hintime : InTime library ops) :
  InTime library ops'
  := by
  intro hnone current hcurrent
  have hnot : ∀ error, ¬ Failure library ops error :=
    fun error hfailure => hnone error (hfailure.perm (h.perm hperm) hperm.symm)
  exact (hintime hnot current (hcurrent.perm h hperm)).congr fun x =>
    (entries_perm h hperm (cidOf library current)).mem_iff.symm

end Distinct

/-! ### Forks -/

section Forks

variable {library : Library} {ops ops' : List OperationWithTimestamp} {order : List Text}
  {prev current : Text} {op : OperationWithTimestamp} {error : PlcDidError}

/-- The operations by their CIDs. -/
def mapOf (library : Library) (ops : List OperationWithTimestamp) : List (Text × Operation) :=
  ops.map fun op => (cidOf library op.operation, op.operation)

theorem operationMap_eq (h : WellPosed library ops) :
  operationMap library ops = .ok (mapOf library ops)
  := by
  apply mapM_of_ok
  intro op hop
  rw [h.cid_eq hop]
  rfl

theorem lookupOperation_eq (h : WellPosed library ops) (prev : Text) :
  lookupOperation (mapOf library ops) prev =
    (ops.find? fun op => decide (cidOf library op.operation = prev)).map (·.operation)
  := by
  rw [lookupOperation, mapOf, ← List.map_reverse, List.find?_map, Option.map_map,
    find?_perm (List.reverse_perm ops)]
  · rfl
  · intro a ha b hb hpa hpb
    exact h.inj (List.mem_reverse.mp ha) (List.mem_reverse.mp hb)
      ((of_decide_eq_true hpa).trans (of_decide_eq_true hpb).symm)

theorem replay_of_legacy {operation : Operation} (h : operation.isLegacy = true) :
  replay operation = .error legacyError
  := by
  cases operation with
  | plcOperation rotationKeys verificationMethods alsoKnownAs services prev sig => cases h
  | plcTombstone prev sig => cases h
  | legacyCreate signingKey recoveryKey handle service prev sig => rfl

theorem exists_replay {operation : Operation} (h : operation.isLegacy = false) :
  ∃ state, replay operation = .ok state
  := by
  cases operation with
  | plcOperation rotationKeys verificationMethods alsoKnownAs services prev sig => exact ⟨_, rfl⟩
  | plcTombstone prev sig => exact ⟨_, rfl⟩
  | legacyCreate signingKey recoveryKey handle service prev sig => cases h

theorem find_named (h : WellPosed library ops) (hmem : op ∈ ops)
    (hprev : cidOf library op.operation = prev) :
  ops.find? (fun op => decide (cidOf library op.operation = prev)) = some op
  := by
  cases hfind : ops.find? (fun op => decide (cidOf library op.operation = prev)) with
  | none => exact absurd (decide_eq_true hprev) (List.find?_eq_none.mp hfind op hmem)
  | some found =>
    have hfound := List.find?_some hfind
    have heq : cidOf library found.operation = prev := of_decide_eq_true hfound
    rw [h.inj (List.mem_of_find?_eq_some hfind) hmem (heq.trans hprev.symm)]

/-- Replaying up to an operation leaves the state that the operation sets, when no operation before
it is a legacy one. -/
theorem getStateFrom_eq {state : PlcState} {later : List OperationWithTimestamp}
    (hquiet : ∀ other ∈ ops, other.operation.isLegacy = false)
    (hcids : ∀ other ∈ ops, other.operation.cid library = .ok (cidOf library other.operation))
    (hinj : ∀ other ∈ ops, cidOf library other.operation = cidOf library op.operation → other = op)
    (hmem : op ∈ ops) :
  getStateFrom library (cidOf library op.operation) state (ops ++ later) = replay op.operation
  := by
  induction ops generalizing state with
  | nil => cases hmem
  | cons x ops ih =>
    obtain ⟨hquiet, hrest⟩ := List.forall_mem_cons.mp hquiet
    obtain ⟨next, hnext⟩ := exists_replay hquiet
    obtain ⟨hcid, hcids⟩ := List.forall_mem_cons.mp hcids
    obtain ⟨hx, hinj⟩ := List.forall_mem_cons.mp hinj
    rw [List.cons_append, getStateFrom, hnext, hcid]
    by_cases heq : cidOf library x.operation = cidOf library op.operation
    · rw [← hx heq, hnext]
      exact if_pos rfl
    · have hne : op ≠ x := fun hop => heq (by rw [hop])
      have hstate := @ih next hrest hcids hinj (List.mem_of_ne_of_mem hne hmem)
      rw [← hstate]
      exact if_neg heq

/-- Replaying up to an operation leaves the state that the operation sets, or fails at a legacy
operation. -/
theorem getStateFrom_cases {state : PlcState}
    (hcids : ∀ other ∈ ops, other.operation.cid library = .ok (cidOf library other.operation))
    (hinj : ∀ other ∈ ops, cidOf library other.operation = cidOf library op.operation → other = op)
    (hmem : op ∈ ops) :
  getStateFrom library (cidOf library op.operation) state ops = replay op.operation ∨
    (getStateFrom library (cidOf library op.operation) state ops = .error legacyError ∧
      ∃ other ∈ ops, other.operation.isLegacy = true)
  := by
  induction ops generalizing state with
  | nil => cases hmem
  | cons x ops ih =>
    obtain ⟨hcid, hcids⟩ := List.forall_mem_cons.mp hcids
    obtain ⟨hx, hinj⟩ := List.forall_mem_cons.mp hinj
    cases hlegacy : x.operation.isLegacy with
    | true =>
      right
      refine ⟨?_, x, List.mem_cons_self, hlegacy⟩
      rw [getStateFrom, replay_of_legacy hlegacy]
      rfl
    | false =>
      obtain ⟨next, hnext⟩ := exists_replay hlegacy
      rw [getStateFrom, hnext, hcid]
      by_cases heq : cidOf library x.operation = cidOf library op.operation
      · left
        rw [← hx heq, hnext]
        exact if_pos rfl
      · have hne : op ≠ x := fun hop => heq (by rw [hop])
        have hstep : (Except.ok next >>= fun state => Except.ok (cidOf library x.operation) >>=
            fun cid => if cid = cidOf library op.operation then .ok state
              else getStateFrom library (cidOf library op.operation) state ops) =
            getStateFrom library (cidOf library op.operation) next ops := if_neg heq
        rcases @ih next hcids hinj (List.mem_of_ne_of_mem hne hmem) with h | ⟨h, other, hother, hl⟩
        · exact Or.inl (hstep.trans h)
        · exact Or.inr ⟨hstep.trans h, other, List.mem_cons_of_mem _ hother, hl⟩

/-- The state that a fork starts from is that of the operation that is named, unless the replay
fails at a legacy operation. -/
theorem stateBefore_cases (h : WellPosed library ops) (prev : Text) :
  stateBefore library ops (lookupOperation (mapOf library ops) prev) =
      stateNamed library ops prev ∨
    (stateBefore library ops (lookupOperation (mapOf library ops) prev) = .error legacyError ∧
      DisturbedAt library ops prev)
  := by
  rw [lookupOperation_eq h, stateNamed]
  cases hfind : ops.find? fun op => decide (cidOf library op.operation = prev) with
  | none => exact Or.inl rfl
  | some op =>
    have hmem := List.mem_of_find?_eq_some hfind
    have hfound := List.find?_some hfind
    have hprev : cidOf library op.operation = prev := of_decide_eq_true hfound
    have hstate : stateBefore library ops ((some op).map (·.operation)) =
        getStateFrom library (cidOf library op.operation) .new ops := by
      rw [Option.map_some, stateBefore, getStateAtOperation, h.cid_eq hmem]
      rfl
    rw [hstate]
    rcases getStateFrom_cases (fun other hother => h.cid_eq hother)
      (fun other hother heq => h.inj hother hmem heq) hmem with heq | ⟨heq, hlegacy⟩
    · exact Or.inl heq
    · cases htarget : op.operation.isLegacy with
      | true =>
        left
        rw [heq]
        exact (replay_of_legacy htarget).symm
      | false => exact Or.inr ⟨heq, hlegacy, op, hmem, hprev, htarget⟩

theorem addOperation_eq
    (hstate : stateBefore library ops (lookupOperation (mapOf library ops) prev) =
      stateNamed library ops prev) (op : OperationWithTimestamp) :
  addOperation library ops (lookupOperation (mapOf library ops) prev) op =
    (indexAt library ops prev op.operation).map fun index => ⟨op.operation, op.timestamp, index⟩
  := by
  rw [addOperation, hstate, indexAt]
  cases stateNamed library ops prev with
  | error e => rfl
  | ok state =>
    change (findSigningKeyIndex library op.operation state >>= _) =
      (findSigningKeyIndex library op.operation state).map _
    cases findSigningKeyIndex library op.operation state with
    | error e => rfl
    | ok index => rfl

/-- Two operations that are signed by none of some keys fail in the same way. -/
theorem keyIndexFrom_alike {a b : Operation} {i j : Nat} {keys : List Text}
    {error error' : PlcDidError} (ha : keyIndexFrom library a i keys = .error error)
    (hb : keyIndexFrom library b j keys = .error error') :
  error = error'
  := by
  induction keys generalizing i j with
  | nil =>
    cases ha
    cases hb
    rfl
  | cons key keys ih =>
    rw [keyIndexFrom] at ha hb
    cases hkey : verifyingKey library key with
    | error e =>
      rw [hkey] at ha hb
      cases ha
      cases hb
      rfl
    | ok publicKey =>
      rw [hkey] at ha hb
      change (if (a.verify library [publicKey]).isOk then .ok i
        else keyIndexFrom library a (i + 1) keys) = _ at ha
      change (if (b.verify library [publicKey]).isOk then .ok j
        else keyIndexFrom library b (j + 1) keys) = _ at hb
      split at ha
      · cases ha
      · split at hb
        · cases hb
        · exact ih ha hb

/-- All failures at one fork are alike. -/
theorem indexAt_alike {a b : Operation} {error' : PlcDidError}
    (ha : indexAt library ops prev a = .error error)
    (hb : indexAt library ops prev b = .error error') :
  error = error'
  := by
  rw [indexAt] at ha hb
  cases hstate : stateNamed library ops prev with
  | error e =>
    rw [hstate] at ha hb
    cases ha
    cases hb
    rfl
  | ok state =>
    rw [hstate] at ha hb
    change findSigningKeyIndex library a state = _ at ha
    change findSigningKeyIndex library b state = _ at hb
    rw [findSigningKeyIndex] at ha hb
    split at ha
    · next hempty =>
      rw [if_pos hempty] at hb
      cases ha
      cases hb
      rfl
    · next hkeys =>
      rw [if_neg hkeys] at hb
      exact keyIndexFrom_alike ha hb

theorem forkPoint_of_ok
    (hstate : stateBefore library ops (lookupOperation (mapOf library ops) prev) =
      stateNamed library ops prev)
    (hok : ∀ op ∈ competing prev ops, ∃ index, indexAt library ops prev op.operation = .ok index) :
  forkPoint library ops (mapOf library ops) prev = .ok ⟨prev, entries library ops prev⟩
  := by
  rw [forkPoint, mapM_of_ok (g := entryOf library ops prev)]
  · rfl
  · intro op hop
    obtain ⟨index, hindex⟩ := hok op hop
    rw [addOperation_eq hstate, entryOf, hindex]
    rfl

theorem forkPoint_of_failure
    (hstate : stateBefore library ops (lookupOperation (mapOf library ops) prev) =
      stateNamed library ops prev) (hop : op ∈ competing prev ops)
    (herror : indexAt library ops prev op.operation = .error error) :
  forkPoint library ops (mapOf library ops) prev = .error error
  := by
  rw [forkPoint, @mapM_of_error _ _ _ _ error]
  · rfl
  · intro other hother e he
    rw [addOperation_eq hstate] at he
    cases hindex : indexAt library ops prev other.operation with
    | error e' =>
      rw [hindex] at he
      cases he
      exact indexAt_alike hindex herror
    | ok index =>
      rw [hindex] at he
      cases he
  · refine ⟨op, hop, error, ?_⟩
    rw [addOperation_eq hstate, herror]
    rfl

theorem forkPoint_of_disturbed
    (hstate : stateBefore library ops (lookupOperation (mapOf library ops) prev) = .error error)
    (hfork : 1 < (competing prev ops).length) :
  forkPoint library ops (mapOf library ops) prev = .error error
  := by
  have hadd : ∀ op, addOperation library ops (lookupOperation (mapOf library ops) prev) op =
      .error error := by
    intro op
    rw [addOperation, hstate]
    rfl
  obtain ⟨op, hop⟩ := List.exists_mem_of_length_pos (Nat.lt_trans Nat.zero_lt_one hfork)
  rw [forkPoint, @mapM_of_error _ _ _ _ error]
  · rfl
  · intro other hother e he
    rw [hadd] at he
    cases he
    rfl
  · exact ⟨op, hop, error, hadd op⟩

/-- What comes of a fork: the competing operations with their keys, or a failure. -/
theorem forkPoint_cases (h : WellPosed library ops) (hfork : 1 < (competing prev ops).length) :
  ((∀ op ∈ competing prev ops, ∃ index, indexAt library ops prev op.operation = .ok index) ∧
      forkPoint library ops (mapOf library ops) prev = .ok ⟨prev, entries library ops prev⟩) ∨
    ∃ error, forkPoint library ops (mapOf library ops) prev = .error error ∧
      (Failure library ops error ∨ error = legacyError ∧ Disturbed library ops)
  := by
  rcases stateBefore_cases h prev with hstate | ⟨hstate, hdisturbed⟩
  · by_cases hok : ∀ op ∈ competing prev ops, ∃ index,
        indexAt library ops prev op.operation = .ok index
    · exact Or.inl ⟨hok, forkPoint_of_ok hstate hok⟩
    · right
      simp only [not_forall] at hok
      obtain ⟨op, hop, hno⟩ := hok
      cases hindex : indexAt library ops prev op.operation with
      | ok index => exact absurd ⟨index, hindex⟩ hno
      | error e =>
        exact ⟨e, forkPoint_of_failure hstate hop hindex, Or.inl ⟨prev, hfork, op, hop, hindex⟩⟩
  · right
    exact ⟨legacyError, forkPoint_of_disturbed hstate hfork, Or.inr ⟨rfl, prev, hfork, hdisturbed⟩⟩

/-- The CIDs that are named. -/
def namedCids (ops : List OperationWithTimestamp) : List Text :=
  (ops.filterMap fun op => op.operation.prev).dedup

theorem iterates_namedCids (ops : List OperationWithTimestamp) :
  Iterates (namedCids ops) ops
  := by
  refine ⟨List.nodup_dedup _, fun prev => ?_⟩
  rw [namedCids, List.mem_dedup, List.mem_filterMap]

/-- The CIDs at which there are forks. -/
theorem mem_forks :
  prev ∈ order.filter (fun prev => decide (1 < (competing prev ops).length)) ↔
    prev ∈ order ∧ 1 < (competing prev ops).length
  := by
  rw [List.mem_filter, decide_eq_true_iff]

theorem Iterates.mem (hiter : Iterates order ops) (hfork : 1 < (competing prev ops).length) :
  prev ∈ order
  := by
  obtain ⟨op, hop⟩ := List.exists_mem_of_length_pos (Nat.lt_trans Nat.zero_lt_one hfork)
  exact (hiter.mem_iff prev).mpr ⟨op, (mem_competing.mp hop).1, (mem_competing.mp hop).2⟩

/-- The forks of a list. -/
def forksOf (library : Library) (order : List Text) (ops : List OperationWithTimestamp) :
    List ForkPoint :=
  (order.filter fun prev => decide (1 < (competing prev ops).length)).map fun prev =>
    ⟨prev, entries library ops prev⟩

/-- What comes of the forks: all of them, or a failure at one of them. -/
theorem forkPoints_cases (h : WellPosed library ops) (hiter : Iterates order ops) :
  ((∀ error, ¬ Failure library ops error) ∧
      forkPoints library order ops (mapOf library ops) = .ok (forksOf library order ops)) ∨
    ∃ error, forkPoints library order ops (mapOf library ops) = .error error ∧
      (Failure library ops error ∨ error = legacyError ∧ Disturbed library ops)
  := by
  by_cases hok : ∀ prev ∈ order.filter fun prev => decide (1 < (competing prev ops).length),
      forkPoint library ops (mapOf library ops) prev = .ok ⟨prev, entries library ops prev⟩
  · refine Or.inl ⟨?_, mapM_of_ok hok⟩
    rintro error ⟨prev, hfork, op, hop, herror⟩
    have hprev := hok prev (mem_forks.mpr ⟨hiter.mem hfork, hfork⟩)
    rcases forkPoint_cases h hfork with ⟨hindex, -⟩ | ⟨e, he, -⟩
    · obtain ⟨index, hindex⟩ := hindex op hop
      rw [hindex] at herror
      cases herror
    · rw [he] at hprev
      cases hprev
  · right
    simp only [not_forall] at hok
    obtain ⟨prev, hprev, hno⟩ := hok
    have hsome : ∃ prev ∈ order.filter fun prev => decide (1 < (competing prev ops).length),
        ∃ e, forkPoint library ops (mapOf library ops) prev = .error e := by
      rcases forkPoint_cases h (mem_forks.mp hprev).2 with ⟨-, hok⟩ | ⟨e, he, -⟩
      · exact absurd hok hno
      · exact ⟨prev, hprev, e, he⟩
    obtain ⟨prev, hprev, e, he, hall⟩ := exists_mapM_error hsome
    refine ⟨e, hall, ?_⟩
    rcases forkPoint_cases h (mem_forks.mp hprev).2 with ⟨-, hok⟩ | ⟨e', he', hwhy⟩
    · rw [hok] at he
      cases he
    · rw [he'] at he
      cases he
      exact hwhy

/-- A hash map may give any fork first. -/
theorem exists_iterates_first (hfork : 1 < (competing prev ops).length) :
  ∃ rest, Iterates (prev :: rest) ops
  := by
  obtain ⟨op, hop⟩ := List.exists_mem_of_length_pos (Nat.lt_trans Nat.zero_lt_one hfork)
  have hnamed := iterates_namedCids ops
  have hmem := hnamed.mem hfork
  have hperm := List.perm_cons_erase hmem
  refine ⟨(namedCids ops).erase prev, hperm.nodup_iff.mp hnamed.nodup, fun cid => ?_⟩
  rw [← hperm.mem_iff]
  exact hnamed.mem_iff cid

theorem forkPoints_first {rest : List Text} (hfork : 1 < (competing prev ops).length)
    (herror : forkPoint library ops (mapOf library ops) prev = .error error) :
  forkPoints library (prev :: rest) ops (mapOf library ops) = .error error
  := by
  have hfirst : (prev :: rest).filter (fun prev => decide (1 < (competing prev ops).length)) =
      prev :: rest.filter fun prev => decide (1 < (competing prev ops).length) :=
    List.filter_cons_of_pos (decide_eq_true hfork)
  rw [forkPoints, hfirst, List.mapM_cons, herror]
  rfl

/-- In some order no legacy operation is listed before another one. -/
theorem exists_plain (h : WellPosed library ops) :
  ∃ ops', ops'.Perm ops ∧ ∀ prev,
    stateBefore library ops' (lookupOperation (mapOf library ops') prev) =
      stateNamed library ops' prev
  := by
  have hperm := List.filter_append_perm (fun op : OperationWithTimestamp =>
    !op.operation.isLegacy) ops
  refine ⟨_, hperm, fun prev => ?_⟩
  have h' := h.perm hperm
  rcases stateBefore_cases h' prev with hstate | ⟨hstate, -, target, htarget, hprev, hother⟩
  · exact hstate
  · have hquiet : target ∈ ops.filter fun op => !op.operation.isLegacy := by
      apply List.mem_filter.mpr
      refine ⟨hperm.mem_iff.mp htarget, ?_⟩
      rw [hother]
      rfl
    rw [lookupOperation_eq h', stateNamed, find_named h' htarget hprev]
    dsimp only [Option.map_some]
    rw [stateBefore, getStateAtOperation, h'.cid_eq htarget]
    exact getStateFrom_eq
      (fun other hmem => by simpa using (List.mem_filter.mp hmem).2)
      (fun other hmem => h'.cid_eq (List.mem_append_left _ hmem))
      (fun other hmem heq => h'.inj (List.mem_append_left _ hmem) htarget heq) hquiet

/-- In some order a fork that may be disturbed is. -/
theorem exists_disturbed (h : WellPosed library ops) (hdisturbed : DisturbedAt library ops prev) :
  ∃ ops', ops'.Perm ops ∧
    stateBefore library ops' (lookupOperation (mapOf library ops') prev) = .error legacyError
  := by
  obtain ⟨⟨legacy, hmem, hlegacy⟩, target, htarget, hprev, -⟩ := hdisturbed
  obtain ⟨before, after, rfl⟩ := List.append_of_mem hmem
  have hperm : (legacy :: (before ++ after)).Perm (before ++ legacy :: after) :=
    List.perm_middle.symm
  have h' := h.perm hperm
  have htarget' := hperm.mem_iff.mpr htarget
  refine ⟨_, hperm, ?_⟩
  have hlookup : lookupOperation (mapOf library (legacy :: (before ++ after))) prev =
      some target.operation := by
    rw [lookupOperation_eq h', find_named h' htarget' hprev]
    rfl
  rw [hlookup, stateBefore, getStateAtOperation, h'.cid_eq htarget']
  change getStateFrom library (cidOf library target.operation) .new
    (legacy :: (before ++ after)) = _
  rw [getStateFrom, replay_of_legacy hlegacy]
  rfl

end Forks

/-! ### The run along the chain -/

section Runs

variable {library : Library} {ops ops' : List OperationWithTimestamp} {order : List Text}
  {forks : List ForkPoint} {current : Text} {head op : OperationWithTimestamp}
  {rest : List OperationWithTimestamp} {fuel : Nat} {error : PlcDidError} {chain : List Operation}

/-- At a fork the next operation is the one that is chosen. -/
theorem nextOperation_of_fork (hiter : Iterates order ops)
    (hfork : 1 < (competing current ops).length) :
  nextOperation ops (forksOf library order ops) current =
    (ForkPoint.mk current (entries library ops current)).resolve.map some
  := by
  rw [nextOperation]
  cases hfind : (forksOf library order ops).find? fun fork => decide (fork.prevCid = current) with
  | none =>
    have hmem : ForkPoint.mk current (entries library ops current) ∈ forksOf library order ops :=
      List.mem_map_of_mem (mem_forks.mpr ⟨hiter.mem hfork, hfork⟩)
    exact absurd (decide_eq_true rfl) (List.find?_eq_none.mp hfind _ hmem)
  | some fork =>
    obtain ⟨prev, -, rfl⟩ := List.mem_map.mp (List.mem_of_find?_eq_some hfind)
    have hfound := List.find?_some hfind
    have hprev : prev = current := of_decide_eq_true hfound
    rw [hprev]

/-- Elsewhere it is the one that names the CID, if there is one. -/
theorem nextOperation_of_not_fork (hfork : ¬ 1 < (competing current ops).length) :
  nextOperation ops (forksOf library order ops) current =
    .ok ((competing current ops).head?.map (·.operation))
  := by
  rw [nextOperation]
  cases hfind : (forksOf library order ops).find? fun fork => decide (fork.prevCid = current) with
  | some fork =>
    obtain ⟨prev, hprev, rfl⟩ := List.mem_map.mp (List.mem_of_find?_eq_some hfind)
    have hfound := List.find?_some hfind
    have heq : prev = current := of_decide_eq_true hfound
    rw [heq] at hprev
    exact absurd (mem_forks.mp hprev).2 hfork
  | none =>
    obtain hcompeting | ⟨a, hcompeting⟩ := eq_nil_or_singleton hfork
    · rw [hcompeting]
      rfl
    · rw [hcompeting]
      rfl

/-- One operation comes after another one on the chain that is followed. -/
structure Walks (library : Library) (ops : List OperationWithTimestamp)
    (current next : Operation) : Prop where
  links : ∃ op ∈ competing (cidOf library current) ops, op.operation = next
  stands : 1 < (competing (cidOf library current) ops).length →
    ∃ chosen ∈ entries library ops (cidOf library current), chosen.operation = next ∧
      Standing (entries library ops (cidOf library current)) chosen ∧
      (Punctual (entries library ops (cidOf library current)) →
        Chosen (entries library ops (cidOf library current)) chosen)

/-- There is a next operation, or the chain ends. -/
theorem nextOperation_cases (h : WellPosed library ops) (hiter : Iterates order ops)
    (current : Operation) :
  (competing (cidOf library current) ops = [] ∧
      nextOperation ops (forksOf library order ops) (cidOf library current) = .ok none) ∨
    ∃ op ∈ competing (cidOf library current) ops,
      nextOperation ops (forksOf library order ops) (cidOf library current) =
          .ok (some op.operation) ∧ Walks library ops current op.operation
  := by
  by_cases hfork : 1 < (competing (cidOf library current) ops).length
  · right
    have hne : entries library ops (cidOf library current) ≠ [] := by
      rw [entries, ne_eq, List.map_eq_nil_iff]
      intro hnil
      rw [hnil] at hfork
      exact absurd hfork (by decide)
    obtain ⟨chosen, hchosen, hresolve, hstanding, hrule⟩ :=
      @ForkPoint.resolve_spec _ (cidOf library current) hne (h.entries_distinct _)
    obtain ⟨op, hop, heq⟩ := List.mem_map.mp hchosen
    have hoperation : chosen.operation = op.operation := by
      rw [← heq]
      rfl
    refine ⟨op, hop, ?_, ⟨op, hop, rfl⟩, fun _ => ⟨chosen, hchosen, hoperation, hstanding, hrule⟩⟩
    rw [nextOperation_of_fork hiter hfork, hresolve, hoperation]
    rfl
  · rw [nextOperation_of_not_fork hfork]
    rcases eq_nil_or_singleton hfork with hlist | ⟨op, hlist⟩
    · exact Or.inl ⟨hlist, by rw [hlist]; rfl⟩
    · right
      have hop : op ∈ competing (cidOf library current) ops := by
        rw [hlist]
        exact List.mem_cons_self
      exact ⟨op, hop, by rw [hlist]; rfl, ⟨op, hop, rfl⟩, fun hlong => absurd hlong hfork⟩

/-- By the rule, an operation that comes after another one on the chain that is followed does so
when no operation of higher priority comes exactly at the end of the window. -/
theorem Walks.continues {current next : Operation} (h : Walks library ops current next)
    (hpunctual : Punctual (entries library ops (cidOf library current))) :
  Continues library ops current next
  := by
  refine ⟨h.links, fun hfork => ?_⟩
  obtain ⟨chosen, -, hnext, hstanding, hchosen⟩ := h.stands hfork
  exact ⟨chosen, hchosen hpunctual, hstanding.unbeaten, hnext⟩

/-- When what is chosen at a fork is chosen by the rule, no operation of higher priority comes
exactly at the end of the window. -/
theorem Walks.punctual {current next : Operation} (hw : WellPosed library ops)
    (h : Walks library ops current next) (hrecovers : Recovers library ops current next) :
  Punctual (entries library ops (cidOf library current))
  := by
  intro a ha b hb hchosen hunbeaten hkey heq
  by_cases hfork : 1 < (competing (cidOf library current) ops).length
  · obtain ⟨standing, hmem, hnext, hstanding, -⟩ := h.stands hfork
    obtain ⟨chosen, hchosen', hunbeaten', hnext'⟩ := hrecovers hfork
    have hsame := hw.entries_inj hmem hchosen'.mem (hnext.trans hnext'.symm)
    obtain rfl := chosen_unique (hw.entries_distinct _) hchosen hchosen' hunbeaten hunbeaten'
    rw [hsame] at hstanding
    have hpositive : 0 < recoveryWindow := by decide
    have hlater := hstanding b hb (by omega) hkey
    omega
  · have hlength : (entries library ops (cidOf library current)).length =
        (competing (cidOf library current) ops).length := List.length_map _
    rw [← hlength] at hfork
    rcases eq_nil_or_singleton hfork with hlist | ⟨x, hlist⟩
    · rw [hlist] at ha
      cases ha
    · rw [hlist] at ha hb
      rw [List.mem_singleton.mp ha, List.mem_singleton.mp hb] at hkey
      exact absurd hkey (lt_irrefl _)

/-- The operations of a chain so far, the last one first. -/
structure Visited (library : Library) (ops : List OperationWithTimestamp)
    (head : OperationWithTimestamp) (rest : List OperationWithTimestamp) : Prop where
  nodup : (head :: rest).Nodup
  mem : ∀ op ∈ head :: rest, op ∈ ops
  links : ∀ op ∈ head :: rest, op.operation.prev = none ∨
    ∃ before ∈ rest, op.operation.prev = some (cidOf library before.operation)

/-- The next operation has not been visited. -/
theorem Visited.extend (h : WellPosed library ops) (hvisited : Visited library ops head rest)
    (hop : op ∈ competing (cidOf library head.operation) ops) :
  Visited library ops op (head :: rest)
  := by
  obtain ⟨hmem, hprev⟩ := mem_competing.mp hop
  refine ⟨List.nodup_cons.mpr ⟨?_, hvisited.nodup⟩, List.forall_mem_cons.mpr ⟨hmem, hvisited.mem⟩,
    List.forall_mem_cons.mpr ⟨Or.inr ⟨head, List.mem_cons_self, hprev⟩, ?_⟩⟩
  · intro hin
    obtain hnone | ⟨before, hbefore, hlink⟩ := hvisited.links op hin
    · rw [hnone] at hprev
      cases hprev
    · rw [hprev] at hlink
      have heq : head = before := h.inj (hvisited.mem head List.mem_cons_self)
        (hvisited.mem before (List.mem_cons_of_mem _ hbefore)) (Option.some.inj hlink)
      rw [← heq] at hbefore
      exact (List.nodup_cons.mp hvisited.nodup).1 hbefore
  · intro other hother
    refine (hvisited.links other hother).imp_right ?_
    rintro ⟨before, hbefore, hlink⟩
    exact ⟨before, List.mem_cons_of_mem _ hbefore, hlink⟩

/-- The chain that is followed, from one of its operations on. -/
structure Walked (library : Library) (ops : List OperationWithTimestamp) (chain : List Operation) :
    Prop where
  walks : List.IsChain (Walks library ops) chain
  tip : ∀ last, chain.getLast? = some last → competing (cidOf library last) ops = []

/-- The chain ends: no operation is visited twice. -/
theorem exists_follow (h : WellPosed library ops) (hiter : Iterates order ops)
    (hvisited : Visited library ops head rest) (hfuel : ops.length < rest.length + 1 + fuel) :
  ∃ chain, follow library ops (forksOf library order ops) fuel (cidOf library head.operation) =
      some (.ok chain) ∧ Walked library ops (head.operation :: chain)
  := by
  induction fuel generalizing head rest with
  | zero =>
    have hlength := (List.subperm_of_subset hvisited.nodup hvisited.mem).length_le
    rw [List.length_cons] at hlength
    omega
  | succ fuel ih =>
    rw [follow]
    rcases nextOperation_cases h hiter head.operation with ⟨hnil, hnext⟩ | ⟨op, hop, hnext, hwalks⟩
    · rw [hnext]
      refine ⟨[], rfl, List.isChain_singleton _, fun last hlast => ?_⟩
      cases hlast
      exact hnil
    · rw [hnext]
      dsimp only
      rw [h.cid_eq (mem_competing.mp hop).1]
      dsimp only
      have hlonger : ops.length < (head :: rest).length + 1 + fuel := by
        rw [List.length_cons]
        omega
      obtain ⟨chain, hchain, hwalked⟩ := ih (hvisited.extend h hop) hlonger
      rw [hchain]
      refine ⟨op.operation :: chain, rfl, .cons_cons hwalks hwalked.walks, fun last hlast => ?_⟩
      rw [List.getLast?_cons_cons] at hlast
      exact hwalked.tip last hlast

theorem find_genesis (h : WellPosed library ops) (hmem : op ∈ ops)
    (hgenesis : op.operation.isGenesis = true) :
  ops.find? (fun op => op.operation.isGenesis) = some op
  := by
  cases hfind : ops.find? (fun op => op.operation.isGenesis) with
  | none => exact absurd hgenesis (List.find?_eq_none.mp hfind op hmem)
  | some other =>
    have hfound := List.find?_some hfind
    rw [h.oneGenesis other (List.mem_of_find?_eq_some hfind) op hmem hfound hgenesis]

theorem not_isEmpty {α : Type} {xs : List α} {x : α} (hmem : x ∈ xs) :
  ¬ xs.isEmpty = true
  := by
  rw [List.isEmpty_iff]
  exact List.ne_nil_of_mem hmem

theorem build_of_error (h : WellPosed library ops)
    (hforks : forkPoints library order ops (mapOf library ops) = .error error) :
  build library order ops = some (.error error)
  := by
  obtain ⟨genesis, hmem, hgenesis⟩ := h.genesis
  rw [build, if_neg (not_isEmpty hmem), operationMap_eq h]
  dsimp only
  rw [find_genesis h hmem hgenesis]
  dsimp only
  rw [hforks]

theorem build_of_ok (h : WellPosed library ops) (hmem : op ∈ ops)
    (hgenesis : op.operation.isGenesis = true)
    (hforks : forkPoints library order ops (mapOf library ops) = .ok forks) :
  build library order ops =
    (follow library ops forks (ops.length + 1) (cidOf library op.operation)).map fun rest =>
      rest.map fun rest => op.operation :: rest
  := by
  rw [build, if_neg (not_isEmpty hmem), operationMap_eq h]
  dsimp only
  rw [find_genesis h hmem hgenesis]
  dsimp only
  rw [hforks]
  dsimp only
  rw [h.cid_eq hmem]

theorem validateWithForks_eq (hmem : op ∈ ops) :
  validateWithForks library order ops =
    (build library order ops).map fun chain => chain.bind (validateChain library)
  := by
  have hzip : List.zipWith OperationWithTimestamp.mk (ops.map (·.operation))
      (ops.map (·.timestamp)) = ops := by
    clear hmem
    induction ops with
    | nil => rfl
    | cons op ops ih => rw [List.map_cons, List.map_cons, List.zipWith_cons_cons, ih]
  have hlength : ¬ (ops.map (·.operation)).length ≠ (ops.map (·.timestamp)).length := by
    rw [List.length_map, List.length_map]
    exact not_not.mpr rfl
  rw [validateWithForks, validateChainWithForks, if_neg hlength, hzip,
    if_neg (not_isEmpty (List.mem_map_of_mem hmem))]

theorem visited_genesis (hmem : op ∈ ops) (hgenesis : op.operation.isGenesis = true) :
  Visited library ops op []
  := by
  refine ⟨List.nodup_singleton op, ?_, ?_⟩
  · intro other hother
    rw [List.mem_singleton.mp hother]
    exact hmem
  · intro other hother
    rw [List.mem_singleton.mp hother]
    exact Or.inl (Option.isNone_iff_eq_none.mp hgenesis)

/-- What is built: the chain that is followed from the genesis operation on, or a failure. -/
theorem build_cases (h : WellPosed library ops) (hiter : Iterates order ops) :
  ((∀ error, ¬ Failure library ops error) ∧ ∃ genesis ∈ ops,
      genesis.operation.isGenesis = true ∧ ∃ rest,
        build library order ops = some (.ok (genesis.operation :: rest)) ∧
          Walked library ops (genesis.operation :: rest)) ∨
    ∃ error, build library order ops = some (.error error) ∧
      (Failure library ops error ∨ error = legacyError ∧ Disturbed library ops)
  := by
  rcases forkPoints_cases h hiter with ⟨hnone, hforks⟩ | ⟨error, herror, hwhy⟩
  · left
    obtain ⟨genesis, hmem, hgenesis⟩ := h.genesis
    obtain ⟨rest, hfollow, hwalked⟩ := @exists_follow library ops order genesis [] (ops.length + 1)
      h hiter (visited_genesis hmem hgenesis) (by rw [List.length_nil]; omega)
    refine ⟨hnone, genesis, hmem, hgenesis, rest, ?_, hwalked⟩
    rw [build_of_ok h hmem hgenesis hforks, hfollow]
    rfl
  · exact Or.inr ⟨error, build_of_error h herror, hwhy⟩

end Runs

/-! ### The chain of the rule -/

section Rule

variable {library : Library} {ops : List OperationWithTimestamp} {order : List Text}
  {current : Operation} {chain chain' : List Operation}

/-- The rule gives one next operation. -/
theorem Continues.unique (h : WellPosed library ops) {a b : Operation}
    (ha : Continues library ops current a) (hb : Continues library ops current b) :
  a = b
  := by
  by_cases hfork : 1 < (competing (cidOf library current) ops).length
  · obtain ⟨x, hx, hux, hxa⟩ := ha.recovers hfork
    obtain ⟨y, hy, huy, hyb⟩ := hb.recovers hfork
    rw [← hxa, ← hyb, chosen_unique (h.entries_distinct _) hx hy hux huy]
  · obtain ⟨op, hop, rfl⟩ := ha.links
    obtain ⟨op', hop', rfl⟩ := hb.links
    rcases eq_nil_or_singleton hfork with hlist | ⟨x, hlist⟩
    · rw [hlist] at hop
      cases hop
    · rw [hlist] at hop hop'
      rw [List.mem_singleton.mp hop, List.mem_singleton.mp hop']

theorem tail_unique (h : WellPosed library ops) {first : Operation} {rest rest' : List Operation}
    (hchain : List.IsChain (Continues library ops) (first :: rest))
    (hchain' : List.IsChain (Continues library ops) (first :: rest'))
    (htip : ∀ last, (first :: rest).getLast? = some last → competing (cidOf library last) ops = [])
    (htip' : ∀ last, (first :: rest').getLast? = some last →
      competing (cidOf library last) ops = []) :
  rest = rest'
  := by
  have hends : ∀ {next : Operation}, Continues library ops first next →
      competing (cidOf library first) ops ≠ [] := by
    intro next hnext hnil
    obtain ⟨op, hop, -⟩ := hnext.links
    rw [hnil] at hop
    cases hop
  induction rest generalizing first rest' with
  | nil =>
    cases rest' with
    | nil => rfl
    | cons next' rest' =>
      exact absurd (htip first rfl) (hends (List.isChain_cons_cons.mp hchain').1)
  | cons next rest ih =>
    obtain ⟨hnext, hrest⟩ := List.isChain_cons_cons.mp hchain
    cases rest' with
    | nil => exact absurd (htip' first rfl) (hends hnext)
    | cons next' rest' =>
      obtain ⟨hnext', hrest'⟩ := List.isChain_cons_cons.mp hchain'
      obtain rfl := hnext.unique h hnext'
      rw [@ih next rest' hrest hrest' (fun last hlast => htip last (by rwa [List.getLast?_cons_cons]))
        (fun last hlast => htip' last (by rwa [List.getLast?_cons_cons])) (fun hnext hnil => ?_)]
      obtain ⟨op, hop, -⟩ := hnext.links
      rw [hnil] at hop
      cases hop

/-- The rule gives one chain. -/
theorem Canonical.unique (h : WellPosed library ops) (hchain : Canonical library ops chain)
    (hchain' : Canonical library ops chain') :
  chain = chain'
  := by
  obtain ⟨⟨op, hop, hgenesis, hhead⟩, hcontinues, htip⟩ := hchain
  obtain ⟨⟨op', hop', hgenesis', hhead'⟩, hcontinues', htip'⟩ := hchain'
  rw [h.oneGenesis op' hop' op hop hgenesis' hgenesis] at hhead'
  obtain ⟨rest, rfl⟩ := List.head?_eq_some_iff.mp hhead
  obtain ⟨rest', rfl⟩ := List.head?_eq_some_iff.mp hhead'
  rw [tail_unique h hcontinues hcontinues' htip htip']

/-- The operations that the rule leads to are those of its chain. -/
theorem Canonical.mem_of_onChain (h : WellPosed library ops) (hchain : Canonical library ops chain)
    (hcurrent : OnChain library ops current) :
  current ∈ chain
  := by
  induction hcurrent with
  | genesis hmem hgenesis =>
    obtain ⟨op, hop, hgenesis', hhead⟩ := hchain.genesis
    rw [h.oneGenesis _ hmem op hop hgenesis hgenesis']
    exact List.mem_of_mem_head? hhead
  | next hcurrent hnext ih =>
    rcases exists_next_of_mem hchain.continues ih with hlast | ⟨next, hmem, hnext'⟩
    · obtain ⟨op, hop, -⟩ := hnext.links
      rw [hchain.tip _ hlast] at hop
      cases hop
    · rw [hnext.unique h hnext']
      exact hmem

/-- The chain that is followed is that of the rule, when no operation of higher priority comes
exactly at the end of the window of a choice on the chain of the rule. -/
theorem Walked.continues {first : Operation} {rest : List Operation}
    (hpunctual : ∀ current, OnChain library ops current →
      Punctual (entries library ops (cidOf library current)))
    (hwalks : List.IsChain (Walks library ops) (first :: rest)) (hfirst : OnChain library ops first) :
  List.IsChain (Continues library ops) (first :: rest)
  := by
  induction rest generalizing first with
  | nil => exact List.isChain_singleton first
  | cons next rest ih =>
    obtain ⟨hnext, hrest⟩ := List.isChain_cons_cons.mp hwalks
    have hcontinues := hnext.continues (hpunctual first hfirst)
    exact .cons_cons hcontinues (ih hrest (hfirst.next hcontinues))

end Rule

/-! ### Chains without forks -/

section Chains

variable {library : Library} {ops : List OperationWithTimestamp} {first : OperationWithTimestamp}
  {rest : List OperationWithTimestamp} {state : PlcState}

/-- The second operation names the first. -/
def Links (library : Library) (a b : OperationWithTimestamp) : Prop :=
  b.operation.prev = some (cidOf library a.operation)

/-- An accepted list starts with a genesis operation, and each other one names the one before. -/
theorem links_of_validateChain
    (h : validateChain library (ops.map (·.operation)) = .ok state) :
  ∃ genesis rest, ops = genesis :: rest ∧ genesis.operation.isGenesis = true ∧
    List.IsChain (Links library) ops
  := by
  cases ops with
  | nil => cases h
  | cons genesis rest =>
    rw [List.map_cons, validateChain] at h
    split at h
    · cases h
    · next hgenesis =>
      have hfirst : genesis.operation.isGenesis = true := by simpa using hgenesis
      obtain ⟨_, _, hrest⟩ := bind_eq_ok.mp h
      obtain ⟨_, _, hrest⟩ := bind_eq_ok.mp hrest
      obtain ⟨next, happly, hrest⟩ := bind_eq_ok.mp hrest
      obtain ⟨cid, hcid, hrest⟩ := bind_eq_ok.mp hrest
      have hchain := isChain_of_validateFrom (Nat.succ_ne_zero 0) happly hcid hrest
      rw [← List.map_cons, List.isChain_map] at hchain
      refine ⟨genesis, rest, rfl, hfirst, hchain.imp fun a b hfollows => ?_⟩
      obtain ⟨cid, hcid, hprev⟩ := hfollows.prev
      rw [Links, hprev, cidOf, hcid]
      rfl

theorem exists_link (h : List.IsChain (Links library) (first :: rest))
    {op : OperationWithTimestamp} (hop : op ∈ rest) :
  ∃ before ∈ (first :: rest).dropLast, Links library before op
  := by
  induction rest generalizing first with
  | nil => cases hop
  | cons next rest ih =>
    obtain ⟨hlink, hrest⟩ := List.isChain_cons_cons.mp h
    obtain rfl | hop := List.mem_cons.mp hop
    · exact ⟨first, List.mem_cons_self, hlink⟩
    · obtain ⟨before, hbefore, hlink⟩ := ih hrest hop
      exact ⟨before, List.mem_cons_of_mem _ hbefore, hlink⟩

/-- No two operations of a chain name the same one. -/
theorem link_unique (hw : WellPosed library ops) (h : List.IsChain (Links library) (first :: rest))
    (hmem : ∀ op ∈ first :: rest, op ∈ ops) (hnodup : (first :: rest).Nodup)
    {a b : OperationWithTimestamp} (ha : a ∈ rest) (hb : b ∈ rest)
    (heq : a.operation.prev = b.operation.prev) :
  a = b
  := by
  induction rest generalizing first with
  | nil => cases ha
  | cons next rest ih =>
    obtain ⟨hlink, hrest⟩ := List.isChain_cons_cons.mp h
    obtain ⟨hfirst, hnodup⟩ := List.nodup_cons.mp hnodup
    have hother : ∀ op ∈ rest, op.operation.prev ≠ next.operation.prev := by
      intro op hop hsame
      obtain ⟨before, hbefore, hbeforeLink⟩ := exists_link hrest hop
      have hin := List.dropLast_subset _ hbefore
      rw [hbeforeLink, hlink] at hsame
      have hsamePlace := hw.inj (hmem before (List.mem_cons_of_mem _ hin))
        (hmem first List.mem_cons_self) (Option.some.inj hsame)
      rw [hsamePlace] at hin
      exact hfirst hin
    obtain hnext | hrestA := List.mem_cons.mp ha
    · obtain hnext' | hrestB := List.mem_cons.mp hb
      · rw [hnext, hnext']
      · rw [hnext] at heq
        exact absurd heq.symm (hother b hrestB)
    · obtain hnext' | hrestB := List.mem_cons.mp hb
      · rw [hnext'] at heq
        exact absurd heq (hother a hrestA)
      · exact ih hrest (fun op hop => hmem op (List.mem_cons_of_mem _ hop)) hnodup hrestA hrestB

/-- A chain has no forks. -/
theorem not_fork (hw : WellPosed library (first :: rest))
    (hgenesis : first.operation.isGenesis = true)
    (h : List.IsChain (Links library) (first :: rest)) (prev : Text) :
  ¬ 1 < (competing prev (first :: rest)).length
  := by
  intro hfork
  have hrest : ∀ op ∈ competing prev (first :: rest), op ∈ rest := by
    intro op hop
    obtain ⟨hmem, hprev⟩ := mem_competing.mp hop
    obtain rfl | hmem := List.mem_cons.mp hmem
    · rw [Option.isNone_iff_eq_none.mp hgenesis] at hprev
      cases hprev
    · exact hmem
  have hnodup : (competing prev (first :: rest)).Nodup := hw.nodup.filter _
  have hprev : ∀ op ∈ competing prev (first :: rest), op.operation.prev = some prev :=
    fun op hop => (mem_competing.mp hop).2
  apply length_le_one hnodup _ hfork
  intro a ha b hb
  exact link_unique hw h (fun _ => id) hw.nodup (hrest a ha) (hrest b hb)
    ((hprev a ha).trans (hprev b hb).symm)

theorem forkPoints_of_not_fork {order : List Text} (h : ∀ prev, ¬ 1 < (competing prev ops).length) :
  forkPoints library order ops (mapOf library ops) = .ok (forksOf library order ops)
  := mapM_of_ok fun prev hprev => absurd (mem_forks.mp hprev).2 (h prev)

/-- Following a chain gives the rest of it. -/
theorem follow_chain (hw : WellPosed library ops) {order : List Text}
    (hforks : ∀ prev, ¬ 1 < (competing prev ops).length)
    (hchain : List.IsChain (Links library) ops)
    (hgenesis : ∀ op ∈ ops, ∀ prev, op.operation.prev = some prev →
      ∃ before ∈ ops.dropLast, Links library before op)
    {pre : List OperationWithTimestamp} {current : OperationWithTimestamp} {fuel : Nat}
    (hops : ops = pre ++ current :: rest) (hfuel : rest.length < fuel) :
  follow library ops (forksOf library order ops) fuel (cidOf library current.operation) =
    some (.ok (rest.map (·.operation)))
  := by
  induction rest generalizing pre current fuel with
  | nil =>
    cases fuel with
    | zero => exact absurd hfuel (Nat.not_lt_zero _)
    | succ fuel =>
      have hnone : competing (cidOf library current.operation) ops = [] := by
        rw [List.eq_nil_iff_forall_not_mem]
        intro op hop
        obtain ⟨hmem, hprev⟩ := mem_competing.mp hop
        obtain ⟨before, hbefore, hlink⟩ := hgenesis op hmem _ hprev
        rw [Links, hprev] at hlink
        have hcurrent : current ∈ ops := by
          rw [hops]
          exact List.mem_append_right _ List.mem_cons_self
        have heq := hw.inj hcurrent (List.dropLast_subset _ hbefore) (Option.some.inj hlink)
        rw [← heq, hops, List.dropLast_concat] at hbefore
        have hnodup := hw.nodup
        rw [hops] at hnodup
        exact (List.nodup_append.mp hnodup).2.2 current hbefore current List.mem_cons_self rfl
      rw [follow, nextOperation_of_not_fork (hforks _), hnone]
      rfl
  | cons next rest ih =>
    cases fuel with
    | zero => exact absurd hfuel (Nat.not_lt_zero _)
    | succ fuel =>
      have hlink : Links library current next := by
        rw [hops] at hchain
        exact (List.isChain_cons_cons.mp (List.isChain_append.mp hchain).2.1).1
      have hnext : next ∈ ops := by
        rw [hops]
        exact List.mem_append_right _ (List.mem_cons_of_mem _ List.mem_cons_self)
      have hcompeting : (competing (cidOf library current.operation) ops).head? = some next := by
        have hmem := mem_competing.mpr ⟨hnext, hlink⟩
        obtain hlist | ⟨x, hlist⟩ :=
          eq_nil_or_singleton (hforks (cidOf library current.operation))
        · rw [hlist] at hmem
          cases hmem
        · rw [hlist] at hmem ⊢
          rw [List.mem_singleton.mp hmem]
          rfl
      have hrest := @ih (pre ++ [current]) next fuel
        (by rw [hops, List.append_assoc, List.singleton_append]) (Nat.lt_of_succ_lt_succ hfuel)
      rw [follow, nextOperation_of_not_fork (hforks _), hcompeting]
      dsimp only [Option.map_some]
      rw [hw.cid_eq hnext]
      dsimp only
      rw [hrest]
      rfl

/-- An accepted chain is built again from its operations. -/
theorem build_of_validateChain (hw : WellPosed library ops)
    (h : validateChain library (ops.map (·.operation)) = .ok state) :
  build library (namedCids ops) ops = some (.ok (ops.map (·.operation)))
  := by
  obtain ⟨genesis, rest, rfl, hgenesis, hchain⟩ := links_of_validateChain h
  have hforks := not_fork hw hgenesis hchain
  rw [build_of_ok hw List.mem_cons_self hgenesis (forkPoints_of_not_fork hforks)]
  rw [@follow_chain _ _ rest hw _ hforks hchain _ [] genesis _ rfl (by
    rw [List.length_cons]
    omega)]
  · rfl
  · intro op hop prev hprev
    obtain rfl | hop := List.mem_cons.mp hop
    · rw [Option.isNone_iff_eq_none.mp hgenesis] at hprev
      cases hprev
    · exact exists_link hchain hop

end Chains

/-! ### Every order -/

section Orders

variable {library : Library} {ops : List OperationWithTimestamp}

/-- In time, a list gives a failure, or the chain of the rule. -/
theorem build_of_inTime (h : WellPosed library ops) (hintime : InTime library ops)
    {ops' : List OperationWithTimestamp} {order : List Text} (hperm : ops'.Perm ops)
    (hiter : Iterates order ops') :
  ((∀ error, ¬ Failure library ops error) ∧ ∃ chain, Canonical library ops chain ∧
      build library order ops' = some (.ok chain)) ∨
    ∃ error, build library order ops' = some (.error error) ∧
      (Failure library ops error ∨ error = legacyError ∧ Disturbed library ops)
  := by
  have h' := h.perm hperm
  rcases build_cases h' hiter with
    ⟨hnone, genesis, hmem, hgenesis, rest, hbuild, hwalked⟩ | ⟨error, hbuild, hwhy⟩
  · left
    refine ⟨fun error hfailure => hnone error (hfailure.perm h' hperm.symm), _, ?_, hbuild⟩
    apply Canonical.perm h hperm
    exact ⟨⟨genesis, hmem, hgenesis, rfl⟩, Walked.continues (hintime.perm h hperm hnone)
      hwalked.walks (.genesis hmem hgenesis), hwalked.tip⟩
  · refine Or.inr ⟨error, hbuild, hwhy.imp (Failure.perm h hperm) ?_⟩
    rintro ⟨rfl, prev, hfork, hdisturbed⟩
    rw [(competing_perm hperm prev).length_eq] at hfork
    exact ⟨rfl, prev, hfork, hdisturbed.perm hperm⟩

/-- All orders give one result. -/
theorem exists_result (h : WellPosed library ops) (hdetermined : Determined library ops)
    (hintime : InTime library ops) :
  ∃ result, ∀ ops' order, ops'.Perm ops → Iterates order ops' →
    validateWithForks library order ops' = some result
  := by
  obtain ⟨genesis, hmem, -⟩ := h.genesis
  have heq : ∀ ops' order, ops'.Perm ops → validateWithForks library order ops' =
      (build library order ops').map fun chain => chain.bind (validateChain library) :=
    fun ops' order hperm => validateWithForks_eq (hperm.mem_iff.mpr hmem)
  by_cases hfailure : ∃ error, Failure library ops error
  · obtain ⟨error, herror⟩ := hfailure
    refine ⟨.error error, fun ops' order hperm hiter => ?_⟩
    rw [heq ops' order hperm]
    rcases build_of_inTime h hintime hperm hiter with ⟨hnone, -⟩ | ⟨error', hbuild, hwhy⟩
    · exact absurd herror (hnone error)
    · have hsame : error' = error := by
        rcases hwhy with herror' | ⟨rfl, hdisturbed⟩
        · exact hdetermined.alike error' error herror' herror
        · exact (hdetermined.legacy hdisturbed error herror).symm
      rw [hbuild, hsame]
      rfl
  · have hnone : ∀ error, ¬ Failure library ops error := not_exists.mp hfailure
    by_cases hdisturbed : Disturbed library ops
    · refine ⟨.error legacyError, fun ops' order hperm hiter => ?_⟩
      rw [heq ops' order hperm]
      rcases build_of_inTime h hintime hperm hiter with
        ⟨-, chain, hchain, hbuild⟩ | ⟨error, hbuild, hwhy⟩
      · rw [hbuild]
        exact congrArg some (hdetermined.refused hdisturbed hnone chain hchain)
      · rcases hwhy with herror | ⟨rfl, -⟩
        · exact absurd herror (hnone error)
        · rw [hbuild]
          rfl
    · have hchains : ∀ ops' order, ops'.Perm ops → Iterates order ops' →
          ∃ chain, Canonical library ops chain ∧ build library order ops' = some (.ok chain) := by
        intro ops' order hperm hiter
        rcases build_of_inTime h hintime hperm hiter with
          ⟨-, hchain⟩ | ⟨error, -, hwhy⟩
        · exact hchain
        · rcases hwhy with herror | ⟨-, hdisturbed'⟩
          · exact absurd herror (hnone error)
          · exact absurd hdisturbed' hdisturbed
      obtain ⟨chain, hchain, -⟩ := hchains ops _ (List.Perm.refl _) (iterates_namedCids ops)
      refine ⟨validateChain library chain, fun ops' order hperm hiter => ?_⟩
      obtain ⟨chain', hchain', hbuild⟩ := hchains ops' order hperm hiter
      rw [heq ops' order hperm, hbuild, hchain'.unique h hchain]
      rfl

theorem orderFree_of_inTime (h : WellPosed library ops) (hdetermined : Determined library ops)
    (hintime : InTime library ops) :
  OrderFree library ops
  := by
  obtain ⟨result, hresult⟩ := exists_result h hdetermined hintime
  obtain ⟨genesis, hmem, -⟩ := h.genesis
  refine ⟨⟨result, hresult⟩, ?_, ?_⟩
  · intro chain state hchain haccepted ops' order hperm hiter
    have hone := hresult chain _ hchain (iterates_namedCids chain)
    rw [validateWithForks_eq (hchain.mem_iff.mpr hmem),
      build_of_validateChain (h.perm hchain) haccepted] at hone
    rw [hresult ops' order hperm hiter, ← hone]
    exact congrArg some haccepted
  · intro ops' order chain hperm hiter hbuild
    rcases build_of_inTime h hintime hperm hiter with
      ⟨-, chain', hchain', hbuild'⟩ | ⟨error, hbuild', -⟩
    · rw [hbuild] at hbuild'
      cases hbuild'
      exact (hchain'.perm (h.perm hperm) hperm.symm).continues.imp fun _ _ hnext => hnext.recovers
    · rw [hbuild] at hbuild'
      cases hbuild'

/-- A failure decides the result, in an order in which no legacy operation comes first. -/
theorem result_of_failure (h : WellPosed library ops) {error : PlcDidError}
    (hplain : ∀ prev, stateBefore library ops (lookupOperation (mapOf library ops) prev) =
      stateNamed library ops prev) (hfailure : Failure library ops error) :
  ∃ order, Iterates order ops ∧ validateWithForks library order ops = some (.error error)
  := by
  obtain ⟨prev, hfork, op, hop, herror⟩ := hfailure
  obtain ⟨rest, hiter⟩ := exists_iterates_first hfork
  refine ⟨_, hiter, ?_⟩
  rw [validateWithForks_eq (mem_competing.mp hop).1, build_of_error h
    (forkPoints_first hfork (forkPoint_of_failure (hplain prev) hop herror))]
  rfl

theorem result_of_disturbed (h : WellPosed library ops) (hdisturbed : Disturbed library ops) :
  ∃ ops' order, ops'.Perm ops ∧ Iterates order ops' ∧
    validateWithForks library order ops' = some (.error legacyError)
  := by
  obtain ⟨prev, hfork, hat⟩ := hdisturbed
  obtain ⟨ops', hperm, hstate⟩ := exists_disturbed h hat
  rw [← (competing_perm hperm prev).length_eq] at hfork
  obtain ⟨rest, hiter⟩ := exists_iterates_first hfork
  obtain ⟨genesis, hmem, -⟩ := (h.perm hperm).genesis
  refine ⟨ops', _, hperm, hiter, ?_⟩
  rw [validateWithForks_eq hmem, build_of_error (h.perm hperm)
    (forkPoints_first hfork (forkPoint_of_disturbed hstate hfork))]
  rfl

theorem inTime_of_orderFree (h : WellPosed library ops) (hfree : OrderFree library ops) :
  Determined library ops ∧ InTime library ops
  := by
  obtain ⟨⟨result, hsame⟩, -, hrecovers⟩ := hfree
  obtain ⟨plain, hperm, hplain⟩ := exists_plain h
  have hplainPosed := h.perm hperm
  have hresult : ∀ error, Failure library ops error → result = .error error := by
    intro error hfailure
    obtain ⟨order, hiter, hvalidate⟩ :=
      result_of_failure hplainPosed hplain (hfailure.perm hplainPosed hperm.symm)
    rw [hsame plain order hperm hiter] at hvalidate
    exact Option.some.inj hvalidate
  have hlegacy : Disturbed library ops → result = .error legacyError := by
    intro hdisturbed
    obtain ⟨ops', order, hperm', hiter, hvalidate⟩ := result_of_disturbed h hdisturbed
    rw [hsame ops' order hperm' hiter] at hvalidate
    exact Option.some.inj hvalidate
  -- without a failure the chain that is built is that of the rule
  have hchain : (∀ error, ¬ Failure library ops error) → ∃ chain,
      List.IsChain (Walks library plain) chain ∧ List.IsChain (Recovers library plain) chain ∧
        Canonical library ops chain ∧ validateChain library chain = result := by
    intro hnone
    have hiter := iterates_namedCids plain
    obtain ⟨genesis, hmem, hgenesis⟩ := hplainPosed.genesis
    have hok : ∀ prev, 1 < (competing prev plain).length → ∀ op ∈ competing prev plain,
        ∃ index, indexAt library plain prev op.operation = .ok index := by
      intro prev hfork op hop
      cases hindex : indexAt library plain prev op.operation with
      | ok index => exact ⟨index, rfl⟩
      | error e =>
        exact absurd (Failure.perm h hperm ⟨prev, hfork, op, hop, hindex⟩) (hnone e)
    have hforks : forkPoints library (namedCids plain) plain (mapOf library plain) =
        .ok (forksOf library (namedCids plain) plain) := by
      apply mapM_of_ok
      intro prev hprev
      exact forkPoint_of_ok (hplain prev) (hok prev (mem_forks.mp hprev).2)
    obtain ⟨rest, hfollow, hwalked⟩ := @exists_follow library plain (namedCids plain) genesis []
      (plain.length + 1) hplainPosed hiter (visited_genesis hmem hgenesis)
      (by rw [List.length_nil]; omega)
    have hbuild : build library (namedCids plain) plain =
        some (.ok (genesis.operation :: rest)) := by
      rw [build_of_ok hplainPosed hmem hgenesis hforks, hfollow]
      rfl
    have hrule := hrecovers plain _ _ hperm hiter hbuild
    refine ⟨_, hwalked.walks, hrule, Canonical.perm h hperm ⟨⟨genesis, hmem, hgenesis, rfl⟩,
      (isChain_and hwalked.walks hrule).imp fun _ _ hboth => ⟨hboth.1.links, hboth.2⟩,
      hwalked.tip⟩, ?_⟩
    have hvalidate := hsame plain _ hperm hiter
    rw [validateWithForks_eq hmem, hbuild] at hvalidate
    exact Option.some.inj hvalidate
  refine ⟨⟨?_, ?_, ?_⟩, ?_⟩
  · intro error error' hfailure hfailure'
    exact Except.error.inj ((hresult error hfailure).symm.trans (hresult error' hfailure'))
  · intro hdisturbed error hfailure
    exact Except.error.inj ((hresult error hfailure).symm.trans (hlegacy hdisturbed))
  · intro hdisturbed hnone chain hcanonical
    obtain ⟨chain', -, -, hcanonical', hvalidate⟩ := hchain hnone
    rw [hcanonical.unique h hcanonical', hvalidate]
    exact hlegacy hdisturbed
  · intro hnone current hcurrent
    obtain ⟨chain, hwalks, hrule, hcanonical, -⟩ := hchain hnone
    have hmem := hcanonical.mem_of_onChain h hcurrent
    have hentries := fun x => (entries_perm h hperm (cidOf library current)).mem_iff (a := x)
    rcases exists_next_of_mem (isChain_and hwalks hrule) hmem with hlast | ⟨next, -, hwalk, hnext⟩
    · intro a ha
      have hnil : entries library ops (cidOf library current) = [] := by
        rw [entries, hcanonical.tip current hlast]
        rfl
      rw [hnil] at ha
      cases ha
    · exact (hwalk.punctual hplainPosed hnext).congr hentries

/-- The forks of a list are resolved in one way, and by the recovery rule, exactly when the failures
to find a signing key are alike and no operation of higher priority comes exactly at the end of the
window of a choice. -/
theorem orderFree_iff (h : WellPosed library ops) :
  OrderFree library ops ↔ Determined library ops ∧ InTime library ops
  := ⟨inTime_of_orderFree h, fun hboth => orderFree_of_inTime h hboth.1 hboth.2⟩

end Orders

/-! ### A recovery -/

/-- One hour in nanoseconds. -/
def oneHour : Int := 3600000000000

/-- The DID is taken back by the first key. -/
def sampleRecovery : Operation :=
  .plcOperation [sampleKey] [] [textOf "at://upper.example.com"] [] (some genesisCid) recoverySig

/-- The second key takes the DID over and deletes it, and the first key takes it back two hours
later. -/
def recoveredOps : List OperationWithTimestamp :=
  [⟨sampleRecovery, 3 * oneHour⟩, ⟨sampleTombstone, 2 * oneHour⟩,
    ⟨sampleGenesis genesisSig, 0⟩, ⟨sampleUpdate, oneHour⟩]

/-- A legacy operation whose predecessor is in no list. -/
def legacyOperation : OperationWithTimestamp :=
  ⟨.legacyCreate laterKey sampleKey (textOf "a.example") (textOf "https://pds.example")
    (some tombstoneCid) .empty, 4 * oneHour⟩

/-- A fork of two operations after the genesis operation, and a legacy operation elsewhere. -/
def forkedOps : List OperationWithTimestamp :=
  [⟨sampleGenesis genesisSig, 0⟩, ⟨sampleUpdate, oneHour⟩, ⟨sampleRecovery, 3 * oneHour⟩,
    legacyOperation]

/-- The same operations, the legacy one first. -/
def legacyFirst : List OperationWithTimestamp :=
  [legacyOperation, ⟨sampleGenesis genesisSig, 0⟩, ⟨sampleUpdate, oneHour⟩,
    ⟨sampleRecovery, 3 * oneHour⟩]

/-- The error of a validation. -/
def errorOf : Except PlcDidError PlcState → Option PlcDidError
  | .error e => some e
  | .ok _ => none

/-- A list is well posed when its CIDs and its timestamps are distinct and one of its operations is
a genesis. -/
theorem wellPosed_of_nodup {library : Library} {ops : List OperationWithTimestamp}
    {cids : List Text}
    (hcids : ops.map (fun op => (op.operation.cid library).toOption) = cids.map some)
    (hnodup : cids.Nodup) (htimes : (ops.map (·.timestamp)).Nodup)
    (hgenesis : (ops.filter fun op => op.operation.isGenesis).length = 1) :
  WellPosed library ops
  := by
  have hdistinct : (ops.map fun op => (op.operation.cid library).toOption).Nodup := by
    rw [hcids]
    exact hnodup.map (Option.some_injective Text)
  obtain ⟨genesis, hone⟩ := List.length_eq_one_iff.mp hgenesis
  have honly : ∀ op ∈ ops, op.operation.isGenesis = true → op = genesis := by
    intro op hop hgenesis
    have hmem : op ∈ ops.filter fun op => op.operation.isGenesis :=
      List.mem_filter.mpr ⟨hop, hgenesis⟩
    rw [hone] at hmem
    exact List.mem_singleton.mp hmem
  refine ⟨?_, ?_, List.pairwise_map.mp htimes, ?_, ?_⟩
  · intro op hop
    have hmem := List.mem_map_of_mem (f := fun op => (op.operation.cid library).toOption) hop
    rw [hcids] at hmem
    obtain ⟨cid, -, hcid⟩ := List.mem_map.mp hmem
    exact exists_eq_ok (by rw [← hcid]; rfl)
  · exact (List.pairwise_map.mp hdistinct).imp fun hne heq => hne (by rw [heq])
  · have hmem : genesis ∈ ops.filter fun op => op.operation.isGenesis := by
      rw [hone]
      exact List.mem_cons_self
    exact ⟨genesis, (List.mem_filter.mp hmem).1, (List.mem_filter.mp hmem).2⟩
  · intro a ha b hb hga hgb
    rw [honly a ha hga, honly b hb hgb]

/-- The CIDs of the operations. -/
theorem sampleCids :
  [sampleGenesis genesisSig, sampleUpdate, sampleRecovery, sampleTombstone,
      legacyOperation.operation].map (fun operation => (operation.cid sampleLibrary).toOption) =
    [genesisCid, updateCid, recoveryCid, tombstoneCid, legacyCid].map some
  := by decide +kernel

theorem wellPosed_recoveredOps :
  WellPosed sampleLibrary recoveredOps
  := by
  have hcids := sampleCids
  simp only [List.map_cons, List.map_nil, List.cons.injEq, and_true] at hcids
  obtain ⟨hgenesis, hupdate, hrecovery, htombstone, -⟩ := hcids
  apply @wellPosed_of_nodup _ _ [recoveryCid, tombstoneCid, genesisCid, updateCid]
  · simp only [recoveredOps, List.map_cons, List.map_nil, hgenesis, hupdate, hrecovery, htombstone]
  · decide
  · decide
  · rfl

theorem wellPosed_forkedOps :
  WellPosed sampleLibrary forkedOps
  := by
  have hcids := sampleCids
  simp only [List.map_cons, List.map_nil, List.cons.injEq, and_true] at hcids
  obtain ⟨hgenesis, hupdate, hrecovery, -, hlegacy⟩ := hcids
  apply @wellPosed_of_nodup _ _ [genesisCid, updateCid, recoveryCid, legacyCid]
  · simp only [forkedOps, List.map_cons, List.map_nil, hgenesis, hupdate, hrecovery, hlegacy]
  · decide
  · decide
  · rfl

/-- The chain of the recovery. -/
def recoveredChain : List Operation := [sampleGenesis genesisSig, sampleRecovery]

theorem cidOf_recoveredChain :
  recoveredChain.map (cidOf sampleLibrary) = [genesisCid, recoveryCid]
  := by
  have hcids := sampleCids
  simp only [List.map_cons, List.map_nil, List.cons.injEq, and_true] at hcids
  obtain ⟨hgenesis, -, hrecovery, -, -⟩ := hcids
  simp only [recoveredChain, List.map_cons, List.map_nil, cidOf, hgenesis, hrecovery,
    Option.getD_some]

/-- The recovery is signed by the first key and the update by the second one, and every fork is
resolved. -/
theorem indexAt_samples :
  ∀ ops ∈ [recoveredOps, forkedOps],
    indexAt sampleLibrary ops genesisCid sampleRecovery = .ok 0 ∧
    indexAt sampleLibrary ops genesisCid sampleUpdate = .ok 1 ∧
    (forkPoints sampleLibrary (namedCids ops) ops (mapOf sampleLibrary ops)).toOption.isSome = true
  := by decide +kernel

/-- By the rule the recovery takes the place of the update. -/
theorem canonical_recoveredChain {ops : List OperationWithTimestamp}
    (hgenesis : ⟨sampleGenesis genesisSig, 0⟩ ∈ ops)
    (hcompeting : ∀ op, op ∈ competing genesisCid ops ↔
      op = ⟨sampleRecovery, 3 * oneHour⟩ ∨ op = ⟨sampleUpdate, oneHour⟩)
    (hrecovery : indexAt sampleLibrary ops genesisCid sampleRecovery = .ok 0)
    (hupdate : indexAt sampleLibrary ops genesisCid sampleUpdate = .ok 1)
    (htip : competing recoveryCid ops = []) :
  Canonical sampleLibrary ops recoveredChain
  := by
  have hentries : ∀ x, x ∈ entries sampleLibrary ops genesisCid ↔
      x = ⟨sampleRecovery, 3 * oneHour, 0⟩ ∨ x = ⟨sampleUpdate, oneHour, 1⟩ := by
    have hfirst : entryOf sampleLibrary ops genesisCid ⟨sampleRecovery, 3 * oneHour⟩ =
        ⟨sampleRecovery, 3 * oneHour, 0⟩ := by
      rw [entryOf, hrecovery]
      rfl
    have hsecond : entryOf sampleLibrary ops genesisCid ⟨sampleUpdate, oneHour⟩ =
        ⟨sampleUpdate, oneHour, 1⟩ := by
      rw [entryOf, hupdate]
      rfl
    intro x
    rw [entries, List.mem_map]
    constructor
    · rintro ⟨op, hop, rfl⟩
      rcases (hcompeting op).mp hop with rfl | rfl
      · exact Or.inl hfirst
      · exact Or.inr hsecond
    · rintro (rfl | rfl)
      · exact ⟨_, (hcompeting _).mpr (Or.inl rfl), hfirst⟩
      · exact ⟨_, (hcompeting _).mpr (Or.inr rfl), hsecond⟩
  have hupdateChosen : Chosen (entries sampleLibrary ops genesisCid)
      ⟨sampleUpdate, oneHour, 1⟩ := by
    refine .earliest ((hentries _).mpr (Or.inr rfl)) fun other hother => ?_
    rcases (hentries other).mp hother with rfl | rfl
    · exact (by decide : oneHour ≤ 3 * oneHour)
    · exact le_refl _
  have htakes : TakesOver (entries sampleLibrary ops genesisCid) ⟨sampleUpdate, oneHour, 1⟩
      ⟨sampleRecovery, 3 * oneHour, 0⟩ := by
    refine ⟨(hentries _).mpr (Or.inl rfl), by decide, by decide, by decide, ?_⟩
    intro other hother htime _ _
    rcases (hentries other).mp hother with rfl | rfl
    · exact le_refl _
    · exact absurd htime (lt_irrefl _)
  have hunbeaten : Unbeaten (entries sampleLibrary ops genesisCid)
      ⟨sampleRecovery, 3 * oneHour, 0⟩ :=
    fun later _ _ hkey => absurd hkey (Nat.not_lt_zero _)
  have hcids := cidOf_recoveredChain
  simp only [recoveredChain, List.map_cons, List.map_nil, List.cons.injEq, and_true] at hcids
  obtain ⟨hgenesisCid, hrecoveryCid⟩ := hcids
  refine ⟨⟨_, hgenesis, rfl, rfl⟩, .cons_cons ⟨?_, ?_⟩ (.singleton _), ?_⟩
  · rw [hgenesisCid]
    exact ⟨_, (hcompeting _).mpr (Or.inl rfl), rfl⟩
  · intro _
    rw [hgenesisCid]
    exact ⟨_, hupdateChosen.replaced htakes, hunbeaten, rfl⟩
  · intro last hlast
    obtain rfl : sampleRecovery = last := Option.some.inj hlast
    rw [hrecoveryCid]
    exact htip

/-- The chain of the rule is validated, when no operation comes exactly 72 hours after another one
and no fork fails. -/
theorem result_of_canonical {library : Library} {ops : List OperationWithTimestamp}
    {order : List Text} {chain : List Operation} (h : WellPosed library ops)
    (hiter : Iterates order ops)
    (htimes : ∀ s ∈ ops.map (·.timestamp), ∀ t ∈ ops.map (·.timestamp), t - s ≠ recoveryWindow)
    (hforks : (forkPoints library order ops (mapOf library ops)).toOption.isSome = true)
    (hchain : Canonical library ops chain) :
  (∀ error, ¬ Failure library ops error) ∧ InTime library ops ∧
    validateWithForks library order ops = some (validateChain library chain)
  := by
  have hintime : InTime library ops := by
    intro _ current _ a ha b hb _ _ _
    obtain ⟨x, hx, rfl⟩ := List.mem_map.mp ha
    obtain ⟨y, hy, rfl⟩ := List.mem_map.mp hb
    exact htimes _ (List.mem_map_of_mem (mem_competing.mp hx).1) _
      (List.mem_map_of_mem (mem_competing.mp hy).1)
  obtain ⟨forks, hok⟩ := exists_eq_ok hforks
  rcases forkPoints_cases h hiter with ⟨hnone, -⟩ | ⟨error, herror, -⟩
  · obtain ⟨genesis, hmem, -⟩ := h.genesis
    refine ⟨hnone, hintime, ?_⟩
    rcases build_cases h hiter with
      ⟨-, first, hfirst, hgenesis, rest, hbuild, hwalked⟩ | ⟨error, hbuild, -⟩
    · have hcanonical : Canonical library ops (first.operation :: rest) :=
        ⟨⟨first, hfirst, hgenesis, rfl⟩, Walked.continues (hintime hnone) hwalked.walks
          (.genesis hfirst hgenesis), hwalked.tip⟩
      rw [validateWithForks_eq hmem, hbuild, hcanonical.unique h hchain]
      rfl
    · obtain ⟨first, hfirst, hgenesis⟩ := h.genesis
      obtain ⟨rest, hfollow, -⟩ := @exists_follow library ops order first [] (ops.length + 1) h
        hiter (visited_genesis hfirst hgenesis) (by rw [List.length_nil]; omega)
      rcases forkPoints_cases h hiter with ⟨-, hforks⟩ | ⟨e, he, -⟩
      · rw [build_of_ok h hfirst hgenesis hforks, hfollow] at hbuild
        cases hbuild
      · rw [hok] at he
        cases he
  · rw [hok] at herror
    cases herror

theorem mem_competing_recoveredOps (op : OperationWithTimestamp) :
  op ∈ competing genesisCid recoveredOps ↔
    op = ⟨sampleRecovery, 3 * oneHour⟩ ∨ op = ⟨sampleUpdate, oneHour⟩
  := by
  simp only [mem_competing, recoveredOps, List.mem_cons, List.not_mem_nil, or_false]
  constructor
  · rintro ⟨rfl | rfl | rfl | rfl, hprev⟩
    · exact Or.inl rfl
    · exact absurd (Option.some.inj hprev) (by decide)
    · cases hprev
    · exact Or.inr rfl
  · rintro (rfl | rfl)
    · exact ⟨Or.inl rfl, rfl⟩
    · exact ⟨Or.inr (Or.inr (Or.inr rfl)), rfl⟩

theorem mem_competing_forkedOps (op : OperationWithTimestamp) :
  op ∈ competing genesisCid forkedOps ↔
    op = ⟨sampleRecovery, 3 * oneHour⟩ ∨ op = ⟨sampleUpdate, oneHour⟩
  := by
  simp only [mem_competing, forkedOps, List.mem_cons, List.not_mem_nil, or_false]
  constructor
  · rintro ⟨rfl | rfl | rfl | rfl, hprev⟩
    · cases hprev
    · exact Or.inr rfl
    · exact Or.inl rfl
    · exact absurd (Option.some.inj hprev) (by decide)
  · rintro (rfl | rfl)
    · exact ⟨Or.inr (Or.inr (Or.inl rfl)), rfl⟩
    · exact ⟨Or.inr (Or.inl rfl), rfl⟩

theorem exists_validateChain_recoveredChain :
  ∃ state, validateChain sampleLibrary recoveredChain = .ok state
  := exists_eq_ok (by decide +kernel)

/-- The recovery is what counts in every order of the list. -/
theorem orderFree_iff_recovery :
  OrderFree sampleLibrary recoveredOps ∧ ∃ state,
    validateChain sampleLibrary recoveredChain = .ok state ∧
    ∀ ops' order, ops'.Perm recoveredOps → Iterates order ops' →
      validateWithForks sampleLibrary order ops' = some (.ok state)
  := by
  obtain ⟨hrecovery, hupdate, hforks⟩ := indexAt_samples recoveredOps List.mem_cons_self
  have hcanonical : Canonical sampleLibrary recoveredOps recoveredChain :=
    canonical_recoveredChain (by simp [recoveredOps]) mem_competing_recoveredOps hrecovery hupdate
      rfl
  obtain ⟨hnone, hintime, hresult⟩ := result_of_canonical wellPosed_recoveredOps
    (iterates_namedCids recoveredOps) (by decide) hforks hcanonical
  have hquiet : ¬ Disturbed sampleLibrary recoveredOps := by
    rintro ⟨prev, -, ⟨op, hop, hlegacy⟩, -⟩
    have hnone : (recoveredOps.any fun op => op.operation.isLegacy) = false := rfl
    rw [List.any_eq_false] at hnone
    exact hnone op hop hlegacy
  have hfree : OrderFree sampleLibrary recoveredOps := by
    refine (orderFree_iff wellPosed_recoveredOps).mpr ⟨⟨?_, ?_, ?_⟩, hintime⟩
    · exact fun error _ hfailure => absurd hfailure (hnone error)
    · exact fun hdisturbed => absurd hdisturbed hquiet
    · exact fun hdisturbed => absurd hdisturbed hquiet
  obtain ⟨state, hstate⟩ := exists_validateChain_recoveredChain
  refine ⟨hfree, state, hstate, fun ops' order hperm hiter => ?_⟩
  obtain ⟨result, hsame⟩ := hfree.same
  rw [hsame ops' order hperm hiter, ← hstate, ← hresult,
    hsame recoveredOps _ (List.Perm.refl _) (iterates_namedCids recoveredOps)]

/-- The recovery fails when a legacy operation is listed first. -/
theorem not_orderFree :
  (∃ state, validateWithForks sampleLibrary (namedCids forkedOps) forkedOps = some (.ok state)) ∧
    legacyFirst.Perm forkedOps ∧
    (validateWithForks sampleLibrary (namedCids legacyFirst) legacyFirst).map errorOf =
      some (some (.invalidOperationType "Legacy create operations not fully supported")) ∧
    ¬ ∀ (library : Library) (ops : List OperationWithTimestamp), WellPosed library ops →
      OrderFree library ops
  := by
  obtain ⟨hrecovery, hupdate, hforks⟩ :=
    indexAt_samples forkedOps (List.mem_cons_of_mem _ List.mem_cons_self)
  have hcanonical : Canonical sampleLibrary forkedOps recoveredChain :=
    canonical_recoveredChain (by simp [forkedOps]) mem_competing_forkedOps hrecovery hupdate rfl
  obtain ⟨-, -, hresult⟩ := result_of_canonical wellPosed_forkedOps
    (iterates_namedCids forkedOps) (by decide) hforks hcanonical
  obtain ⟨state, hstate⟩ := exists_validateChain_recoveredChain
  rw [hstate] at hresult
  have hperm : legacyFirst.Perm forkedOps :=
    (@List.perm_middle _ legacyOperation
      [⟨sampleGenesis genesisSig, 0⟩, ⟨sampleUpdate, oneHour⟩, ⟨sampleRecovery, 3 * oneHour⟩]
      []).symm
  have hfirst : (validateWithForks sampleLibrary (namedCids legacyFirst) legacyFirst).map errorOf =
      some (some (.invalidOperationType "Legacy create operations not fully supported")) := by
    decide +kernel
  refine ⟨⟨state, hresult⟩, hperm, hfirst, fun hclaim => ?_⟩
  obtain ⟨result, hsame⟩ := (hclaim sampleLibrary forkedOps wellPosed_forkedOps).same
  have hlast := hsame forkedOps _ (List.Perm.refl _) (iterates_namedCids forkedOps)
  rw [hsame legacyFirst _ hperm (iterates_namedCids legacyFirst), ← hlast, hresult] at hfirst
  cases hfirst

end Atproto.Identity.Plc
