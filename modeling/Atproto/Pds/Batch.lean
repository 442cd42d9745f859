import Atproto.Pds.RepoWriter

/-!
# What a batch does

An operation that is accepted changes the tree at its own key and adds to the rows that are
written or to the records that are deleted.
-/

namespace Atproto.Pds

open Atproto.Dasl Atproto.Lexicon Atproto.Record Atproto.Repo Logic SearchTree

/-- What an operation did to a record: its new CID, or none when it was deleted. -/
structure Change where
  record : Text × Text
  cid : Option Cid

namespace Change

/-- The path of the record in the tree. -/
def key (change : Change) : Key := mstKey change.record.1 change.record.2

/-- The operation on the tree. -/
def operation (change : Change) : Operation :=
  match change.cid with
  | some cid => .insert change.key cid
  | none => .delete change.key

/-- The row that is written. -/
def write? (change : Change) : Option (Text × Text × Cid) :=
  change.cid.map fun cid => (change.record.1, change.record.2, cid)

/-- The record that is deleted. -/
def delete? (change : Change) : Option (Text × Text) :=
  match change.cid with
  | some _ => none
  | none => some change.record

/-- A change is an operation on its own key. -/
theorem target_operation (change : Change) :
  change.operation.target = change.key
  := by
  rw [operation]
  cases change.cid with
  | some cid => rfl
  | none => rfl

/-- The operation of a change stores what the change leaves. -/
theorem value?_operation (change : Change) :
  change.operation.value? = change.cid
  := by
  rw [operation]
  cases change.cid with
  | some cid => rfl
  | none => rfl

end Change

/-- The list after some changes. -/
def editChanges (changes : List Change) (xs : List (Key × Cid)) : List (Key × Cid) :=
  editAll (changes.map Change.operation) xs

variable {ctx : Context} {U : Key × Cid → Prop} {account : Account} {op : WriteOp}
  {draft draft' : Draft ctx} {xs : List (Key × Cid)}

/-- What an accepted operation does to the draft. -/
structure Applied (U : Key × Cid → Prop) (op : WriteOp) (draft : Draft ctx)
    (xs : List (Key × Cid)) (change : Change) (draft' : Draft ctx) : Prop where
  record : change.record = (op.collection, op.rkey)
  action : change.cid = none ↔ op.action = .delete
  stands : draft'.mst.Stands U (change.operation.edit xs)
  grows : draft.mst.storage ≤ draft'.mst.storage
  rows : draft'.recordRows = draft.recordRows ++ change.write?.toList
  deletes : draft'.deleteRkeys = draft.deleteRkeys ++ change.delete?.toList

/-- A key that is read is looked up in the tree of the draft. -/
theorem getKey_eq_ok {key : Key} {found : Option Cid}
    (h : getKey key draft = (.ok found, draft')) :
  draft.mst.get key = .ok found ∧ draft = draft'
  := by
  obtain ⟨hget, hdraft⟩ := Prod.ext_iff.mp h
  exact ⟨mapError_eq_ok.mp hget, hdraft⟩

/-- An insertion that succeeds is one of the tree of the draft. -/
theorem insertKey_eq_ok {key : Key} {cid : Cid} (h : insertKey key cid draft = (.ok (), draft')) :
  ∃ mst, draft.mst.apply (.insert key cid) = .ok mst ∧ draft' = { draft with mst := mst }
  := by
  rw [insertKey] at h
  rw [Mst.apply]
  cases hinsert : draft.mst.insert key cid with
  | mk result mst =>
    rw [hinsert] at h
    cases result with
    | error error => cases h
    | ok root =>
      cases h
      exact ⟨mst, rfl, rfl⟩

/-- A deletion that succeeds is one of the tree of the draft. -/
theorem deleteKey_eq_ok {key : Key} (h : deleteKey key draft = (.ok (), draft')) :
  ∃ mst, draft.mst.apply (.delete key) = .ok mst ∧ draft' = { draft with mst := mst }
  := by
  rw [deleteKey] at h
  rw [Mst.apply]
  cases hdelete : draft.mst.delete key with
  | mk result mst =>
    rw [hdelete] at h
    cases result with
    | error error => cases h
    | ok root =>
      cases h
      exact ⟨mst, rfl, rfl⟩

/-- A creation or an update that is accepted has stored the encoding of its value and given its CID
to the key, in the tree and in the rows. -/
theorem applyWrite_eq_ok (h : applyWrite account op draft = (.ok (), draft')) :
  ∃ value bytes prior mst diff, op.value = some value ∧ account.recordBytes value = .ok bytes ∧
    { draft.mst with storage := draft.mst.storage.put bytes }.get op.mstKey = .ok prior ∧
    ¬ (op.action = .create ∧ prior.isSome) ∧
    { draft.mst with storage := draft.mst.storage.put bytes }.apply
      (.insert op.mstKey (computeCid ctx.sha256 bytes)) = .ok mst ∧
    draft' = {
      mst := mst
      diffs := draft.diffs ++ [diff]
      recordRows := draft.recordRows ++ [(op.collection, op.rkey, computeCid ctx.sha256 bytes)]
      deleteRkeys := draft.deleteRkeys
      touchedKeys := draft.touchedKeys ++ [op.mstKey] }
  := by
  obtain ⟨value, d₁, hrequire, h⟩ := Action.bind_eq_ok.mp h
  obtain ⟨hvalue, rfl⟩ := Action.ofExcept_eq_ok.mp hrequire
  obtain ⟨bytes, d₂, hencode, h⟩ := Action.bind_eq_ok.mp h
  obtain ⟨hbytes, rfl⟩ := Action.ofExcept_eq_ok.mp hencode
  obtain ⟨⟨⟩, d₃, hput, h⟩ := Action.bind_eq_ok.mp h
  cases hput
  obtain ⟨prior, d₄, hget, h⟩ := Action.bind_eq_ok.mp h
  obtain ⟨hfound, rfl⟩ := getKey_eq_ok hget
  split at h
  · cases h
  rename_i hfresh
  obtain ⟨⟨⟩, d₅, hswap, h⟩ := Action.bind_eq_ok.mp h
  obtain ⟨-, rfl⟩ := Action.ofExcept_eq_ok.mp hswap
  obtain ⟨⟨⟩, d₆, htouch, h⟩ := Action.bind_eq_ok.mp h
  cases htouch
  obtain ⟨⟨⟩, d₇, hinsert, h⟩ := Action.bind_eq_ok.mp h
  obtain ⟨mst, happly, rfl⟩ := insertKey_eq_ok hinsert
  cases h
  refine ⟨value, bytes, prior, mst, _, ?_, mapError_eq_ok.mp hbytes, hfound, hfresh, happly, rfl⟩
  cases hop : op.value with
  | none =>
    rw [hop] at hvalue
    cases hvalue
  | some other =>
    rw [hop] at hvalue
    cases hvalue
    rfl

/-- What an accepted creation or update does. -/
theorem applyWrite_applied (hctx : ctx.Sound) (hU : Short U) (hkey : ∀ cid, U (op.mstKey, cid))
    (h : draft.mst.Stands U xs) (haction : op.action ≠ .delete)
    (hop : applyWrite account op draft = (.ok (), draft')) :
  ∃ change, Applied U op draft xs change draft'
  := by
  obtain ⟨value, bytes, prior, mst, diff, -, -, -, -, happly, rfl⟩ := applyWrite_eq_ok hop
  have hle := draft.mst.storage.le_put hctx.hash bytes
  obtain ⟨hstands, hle'⟩ := (h.grow hle).insert_ok hctx hU (hkey _) happly
  refine ⟨⟨(op.collection, op.rkey), some (computeCid ctx.sha256 bytes)⟩, rfl, ?_, hstands,
    hle.trans hle', rfl, (List.append_nil _).symm⟩
  constructor
  · intro hnone
    cases hnone
  · exact fun hdelete => absurd hdelete haction

/-- What an accepted deletion does. -/
theorem applyDelete_applied (hctx : ctx.Sound) (hU : Short U) (h : draft.mst.Stands U xs)
    (haction : op.action = .delete) (hop : applyDelete account op draft = (.ok (), draft')) :
  ∃ change, Applied U op draft xs change draft'
  := by
  obtain ⟨prior, d₁, hget, hop⟩ := Action.bind_eq_ok.mp hop
  obtain ⟨hfound, rfl⟩ := getKey_eq_ok hget
  have hlookup := h.get_ok hctx hU hfound
  cases prior with
  | none => cases hop
  | some prior =>
    obtain ⟨⟨⟩, d₂, hswap, hop⟩ := Action.bind_eq_ok.mp hop
    obtain ⟨-, rfl⟩ := Action.ofExcept_eq_ok.mp hswap
    obtain ⟨⟨⟩, d₃, htouch, hop⟩ := Action.bind_eq_ok.mp hop
    cases htouch
    obtain ⟨⟨⟩, d₄, hdelete, hop⟩ := Action.bind_eq_ok.mp hop
    obtain ⟨mst, happly, rfl⟩ := deleteKey_eq_ok hdelete
    cases hop
    have hpresent : lookup op.mstKey xs ≠ none := by
      rw [← hlookup]
      exact Option.some_ne_none prior
    obtain ⟨hstands, hle⟩ := h.delete_ok hctx hU hpresent happly
    exact ⟨⟨(op.collection, op.rkey), none⟩, rfl, ⟨fun _ => haction, fun _ => rfl⟩, hstands, hle,
      (List.append_nil _).symm, rfl⟩

/-! ### Growth -/

/-- Drafts are ordered by the blocks that are stored. -/
instance : Preorder (Draft ctx) := Preorder.lift fun draft => draft.mst.storage

/-- A change of the draft that only adds blocks does so wherever it is made. -/
theorem grows_modify {f : Draft ctx → Draft ctx}
    (hf : ∀ draft, draft.mst.storage ≤ (f draft).mst.storage) (draft : Draft ctx) :
  Action.Grows (Action.modify f : Action PdsError (Draft ctx) Unit) draft
  := hf draft

/-- An insertion only adds blocks, also when it fails. -/
theorem grows_insertKey (hctx : ctx.Sound) (hU : Short U) {key : Key} {cid : Cid} (hkey : U (key, cid))
    (h : draft.mst.Stands U xs) :
  Action.Grows (insertKey key cid) draft
  := by
  have hle := h.insert_grows hctx hU hkey
  rw [Action.Grows, insertKey]
  cases hinsert : draft.mst.insert key cid with
  | mk result mst =>
    rw [hinsert] at hle
    cases result with
    | ok root => exact hle
    | error error => exact hle

/-- A deletion of a key that is there only adds blocks, also when it fails. -/
theorem grows_deleteKey (hctx : ctx.Sound) (hU : Short U) {key : Key} (hfound : lookup key xs ≠ none)
    (h : draft.mst.Stands U xs) :
  Action.Grows (deleteKey key) draft
  := by
  have hle := h.delete_grows hctx hU hfound
  rw [Action.Grows, deleteKey]
  cases hdelete : draft.mst.delete key with
  | mk result mst =>
    rw [hdelete] at hle
    cases result with
    | ok root => exact hle
    | error error => exact hle

/-- A creation or an update only adds blocks, also when it fails. -/
theorem applyWrite_grows (hctx : ctx.Sound) (hU : Short U) (hkey : ∀ cid, U (op.mstKey, cid))
    (h : draft.mst.Stands U xs) :
  Action.Grows (applyWrite account op) draft
  := by
  apply Action.Grows.bind (Action.Grows.of_eq rfl)
  intro value d₁ hvalue
  obtain ⟨-, rfl⟩ := Action.ofExcept_eq_ok.mp hvalue
  apply Action.Grows.bind (Action.Grows.of_eq rfl)
  intro bytes d₂ hbytes
  obtain ⟨-, rfl⟩ := Action.ofExcept_eq_ok.mp hbytes
  have hle := draft.mst.storage.le_put hctx.hash bytes
  have hgrows : Action.Grows (putBlock bytes) draft := hle
  apply Action.Grows.bind hgrows
  rintro ⟨⟩ d₃ hput
  cases hput
  apply Action.Grows.bind (Action.Grows.of_eq rfl)
  intro prior d₄ hget
  obtain ⟨-, rfl⟩ := getKey_eq_ok hget
  split
  · exact Action.Grows.of_eq rfl
  apply Action.Grows.bind (Action.Grows.of_eq rfl)
  rintro ⟨⟩ d₅ hswap
  obtain ⟨-, rfl⟩ := Action.ofExcept_eq_ok.mp hswap
  refine Action.Grows.bind (grows_modify ?_ _) ?_
  · exact fun _ => le_refl _
  rintro ⟨⟩ d₆ htouch
  cases htouch
  have hstands := h.grow hle
  refine Action.Grows.bind ?_ ?_
  · exact grows_insertKey hctx hU (hkey _) hstands
  rintro ⟨⟩ d₇ hinsert
  exact grows_modify (fun _ => le_refl _) _

/-- A deletion only adds blocks, also when it fails. -/
theorem applyDelete_grows (hctx : ctx.Sound) (hU : Short U) (h : draft.mst.Stands U xs) :
  Action.Grows (applyDelete account op) draft
  := by
  apply Action.Grows.bind (Action.Grows.of_eq rfl)
  intro prior d₁ hget
  obtain ⟨hfound, rfl⟩ := getKey_eq_ok hget
  have hlookup := h.get_ok hctx hU hfound
  cases prior with
  | none => exact Action.Grows.of_eq rfl
  | some prior =>
    have hpresent : lookup op.mstKey xs ≠ none := by
      rw [← hlookup]
      exact Option.some_ne_none prior
    apply Action.Grows.bind (Action.Grows.of_eq rfl)
    rintro ⟨⟩ d₂ hswap
    obtain ⟨-, rfl⟩ := Action.ofExcept_eq_ok.mp hswap
    refine Action.Grows.bind (grows_modify ?_ _) ?_
    · exact fun _ => le_refl _
    rintro ⟨⟩ d₃ htouch
    cases htouch
    refine Action.Grows.bind ?_ ?_
    · exact grows_deleteKey hctx hU hpresent h
    rintro ⟨⟩ d₄ hdelete
    exact grows_modify (fun _ => le_refl _) _

/-- An operation only adds blocks, also when it fails. -/
theorem applyOp_grows (hctx : ctx.Sound) (hU : Short U) (hkey : ∀ cid, U (op.mstKey, cid))
    (h : draft.mst.Stands U xs) :
  Action.Grows (applyOp account op) draft
  := by
  rw [applyOp]
  cases op.action with
  | create => exact applyWrite_grows hctx hU hkey h
  | update => exact applyWrite_grows hctx hU hkey h
  | delete => exact applyDelete_grows hctx hU h

/-! ### Batches -/

/-- What an operation does when it is accepted. -/
theorem applyOp_applied (hctx : ctx.Sound) (hU : Short U) (hkey : ∀ cid, U (op.mstKey, cid))
    (h : draft.mst.Stands U xs) (hop : applyOp account op draft = (.ok (), draft')) :
  ∃ change, Applied U op draft xs change draft'
  := by
  rw [applyOp] at hop
  cases haction : op.action with
  | create =>
    rw [haction] at hop
    apply applyWrite_applied hctx hU hkey h _ hop
    rw [haction]
    nofun
  | update =>
    rw [haction] at hop
    apply applyWrite_applied hctx hU hkey h _ hop
    rw [haction]
    nofun
  | delete =>
    rw [haction] at hop
    exact applyDelete_applied hctx hU h haction hop

/-- What accepted operations do to the draft one after another. -/
structure AppliedAll (U : Key × Cid → Prop) (ops : List WriteOp) (draft : Draft ctx)
    (xs : List (Key × Cid)) (changes : List Change) (draft' : Draft ctx) : Prop where
  records : changes.map Change.record = ops.map fun op => (op.collection, op.rkey)
  actions : changes.map (fun change => change.cid.isNone) =
    ops.map fun op => decide (op.action = .delete)
  stands : draft'.mst.Stands U (editChanges changes xs)
  grows : draft.mst.storage ≤ draft'.mst.storage
  rows : draft'.recordRows = draft.recordRows ++ changes.filterMap Change.write?
  deletes : draft'.deleteRkeys = draft.deleteRkeys ++ changes.filterMap Change.delete?

theorem filterMap_cons_toList {α β : Type} (f : α → Option β) (x : α) (xs : List α) :
  (x :: xs).filterMap f = (f x).toList ++ xs.filterMap f
  := by
  rw [List.filterMap_cons]
  cases f x with
  | none => rfl
  | some y => rfl

/-- What accepted operations do one after another. -/
theorem applyOps_applied (hctx : ctx.Sound) (hU : Short U) {ops : List WriteOp}
    (hkeys : ∀ op ∈ ops, ∀ cid, U (op.mstKey, cid)) (h : draft.mst.Stands U xs)
    (hops : applyOps account ops draft = (.ok (), draft')) :
  ∃ changes, AppliedAll U ops draft xs changes draft'
  := by
  induction ops generalizing draft xs with
  | nil =>
    cases hops
    exact ⟨[], rfl, rfl, h, le_refl _, (List.append_nil _).symm, (List.append_nil _).symm⟩
  | cons op ops ih =>
    obtain ⟨⟨⟩, mid, hop, hops⟩ := Action.bind_eq_ok.mp hops
    obtain ⟨hkey, hkeys⟩ := List.forall_mem_cons.mp hkeys
    obtain ⟨change, hchange⟩ := applyOp_applied hctx hU hkey h hop
    obtain ⟨changes, hchanges⟩ := ih hkeys hchange.stands hops
    refine ⟨change :: changes, ?_, ?_, hchanges.stands, hchange.grows.trans hchanges.grows, ?_, ?_⟩
    · rw [List.map_cons, List.map_cons, hchange.record, hchanges.records]
    · rw [List.map_cons, List.map_cons, hchanges.actions]
      congr 1
      rw [Bool.eq_iff_iff, Option.isNone_iff_eq_none, hchange.action, decide_eq_true_iff]
    · rw [hchanges.rows, hchange.rows, filterMap_cons_toList, List.append_assoc]
    · rw [hchanges.deletes, hchange.deletes, filterMap_cons_toList, List.append_assoc]

/-- Operations only add blocks, also when one of them fails. -/
theorem applyOps_grows (hctx : ctx.Sound) (hU : Short U) {ops : List WriteOp}
    (hkeys : ∀ op ∈ ops, ∀ cid, U (op.mstKey, cid)) (h : draft.mst.Stands U xs) :
  Action.Grows (applyOps account ops) draft
  := by
  induction ops generalizing draft xs with
  | nil => exact Action.Grows.of_eq rfl
  | cons op ops ih =>
    obtain ⟨hkey, hkeys⟩ := List.forall_mem_cons.mp hkeys
    apply Action.Grows.bind (applyOp_grows hctx hU hkey h)
    rintro ⟨⟩ mid hop
    obtain ⟨change, hchange⟩ := applyOp_applied hctx hU hkey h hop
    exact ih hkeys hchange.stands

end Atproto.Pds
