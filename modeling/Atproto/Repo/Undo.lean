import Atproto.Repo.Covering
import Mathlib.Data.List.Perm.Basic

/-!
# Undoing a batch

Operations on distinct keys are undone in any order by giving each key back its previous
value.  The covering proofs of the keys are enough to do so.
-/

namespace Atproto.Repo

open Atproto.Dasl SearchTree Logic

variable {ctx : Context} {U : Key × Cid → Prop} {xs : List (Key × Cid)} {ops : List Operation}

/-- The operation that gives the key of `op` its value in `map` back: it deletes what was
created, and inserts the previous value of what was updated or deleted. -/
def Operation.undo (map : Key → Option Cid) (op : Operation) : Operation :=
  match map op.target with
  | some value => .insert op.target value
  | none => .delete op.target

theorem Operation.undo_target (map : Key → Option Cid) (op : Operation) :
  (op.undo map).target = op.target
  := by
  rw [Operation.undo]
  split
  · rfl
  · rfl

theorem Operation.undo_value? (map : Key → Option Cid) (op : Operation) :
  (op.undo map).value? = map op.target
  := by
  rw [Operation.undo]
  split
  · next heq => exact heq.symm
  · next heq => exact heq.symm

/-! ### Operations on distinct keys -/

theorem lookup_editAll_of_not_mem (ops : List Operation) (xs : List (Key × Cid)) {k : Key}
    (h : k ∉ ops.map Operation.target) :
  lookup k (editAll ops xs) = lookup k xs
  := by
  induction ops generalizing xs with
  | nil => rfl
  | cons op ops ih =>
    rw [List.map_cons, List.mem_cons, not_or] at h
    rw [editAll, List.foldl_cons, ← editAll, ih (op.edit xs) h.2, op.lookup_edit, Operation.update,
      Function.update_of_ne h.1]

theorem lookup_editAll_of_mem (xs : List (Key × Cid)) (hops : (ops.map Operation.target).Nodup)
    {op : Operation} (h : op ∈ ops) :
  lookup op.target (editAll ops xs) = op.value?
  := by
  induction ops generalizing xs with
  | nil => cases h
  | cons first ops ih =>
    rw [List.map_cons, List.nodup_cons] at hops
    rw [editAll, List.foldl_cons, ← editAll]
    obtain rfl | h := List.mem_cons.mp h
    · rw [lookup_editAll_of_not_mem ops _ hops.1, op.lookup_edit, Operation.update,
        Function.update_self]
    · exact ih (first.edit xs) hops.2 h

theorem sorted_edit (op : Operation) (hs : Sorted xs) :
  Sorted (op.edit xs)
  := by
  cases op with
  | insert key value => exact hs.insert key value
  | delete key => exact hs.erase key

theorem sorted_editAll (ops : List Operation) (hs : Sorted xs) :
  Sorted (editAll ops xs)
  := by
  induction ops generalizing xs with
  | nil => exact hs
  | cons op ops ih => exact ih (sorted_edit op hs)

/-- Undoing a batch in any order gives the list before the batch. -/
theorem editAll_undo (hs : Sorted xs) (hops : (ops.map Operation.target).Nodup)
    {undos : List Operation}
    (hundos : undos.Perm (ops.map fun op => op.undo fun k => lookup k xs)) :
  editAll undos (editAll ops xs) = xs
  := by
  have htargets : (undos.map Operation.target).Perm (ops.map Operation.target) := by
    have hmap := hundos.map Operation.target
    rw [List.map_map] at hmap
    have hsame : (Operation.target ∘ fun op => op.undo fun k => lookup k xs) = Operation.target :=
      funext fun op => op.undo_target _
    rwa [hsame] at hmap
  have hnodup : (undos.map Operation.target).Nodup := htargets.nodup_iff.mpr hops
  apply (sorted_editAll undos (sorted_editAll ops hs)).ext hs
  intro k
  by_cases hk : k ∈ undos.map Operation.target
  · obtain ⟨undo, hundo, rfl⟩ := List.mem_map.mp hk
    rw [lookup_editAll_of_mem _ hnodup hundo]
    obtain ⟨op, -, rfl⟩ := List.mem_map.mp (hundos.mem_iff.mp hundo)
    rw [Operation.undo_value?, Operation.undo_target]
  · rw [lookup_editAll_of_not_mem undos _ hk]
    exact lookup_editAll_of_not_mem ops xs fun hmem => hk (htargets.mem_iff.mpr hmem)

/-! ### Runs that succeed -/

theorem Within.edit {op : Operation} (h : Within U xs) (hop : op.Inserts U) :
  Within U (op.edit xs)
  := by
  cases op with
  | insert key value => exact h.insert hop
  | delete key => exact h.erase key

theorem topLayer_le {depth : Nat} (h : Within U xs)
    (hU : ∀ x, U x → keyHeight ctx.sha256 x.1 ≤ depth) :
  topLayer ctx xs ≤ depth
  := by
  obtain rfl | hne := eq_or_ne xs []
  · exact Nat.zero_le _
  · obtain ⟨x, hx, heq⟩ := @exists_height_eq_top _ _ (keyHeight ctx.sha256) _ hne
    rw [topLayer, ← heq]
    exact hU x (h.mem x hx)

/-- Operations on pairs within the limits succeed one after the other. -/
theorem Mst.Represents.exists_run {P : Key → Prop} {mst : Mst ctx} (h : mst.Represents U P xs)
    (hctx : ctx.Sound) (hU : Short U) (hfit : AllFit ctx ctx.maxDepth U)
    (hheight : ∀ x, U x → keyHeight ctx.sha256 x.1 ≤ ctx.maxDepth)
    (hops : ∀ op ∈ ops, op.Inserts U ∧ P op.target ∧ op.Valid) :
  ∃ mst', mst.run ops = .ok mst' ∧ mst'.Represents U P (editAll ops xs)
  := by
  induction ops generalizing mst xs with
  | nil => exact ⟨mst, rfl, h⟩
  | cons op ops ih =>
    obtain ⟨hop, hP, hvalid⟩ := hops op List.mem_cons_self
    obtain ⟨next, happly⟩ := h.exists_apply hctx hU hop hP hvalid (topLayer_le h.within hheight)
      (topLayer_le (h.within.edit hop) hheight) hfit
    obtain ⟨hnext, -⟩ := h.apply_ok hctx hU hop hP happly
    obtain ⟨last, hrun, hlast⟩ := ih hnext fun op hmem => hops op (List.mem_cons_of_mem _ hmem)
    use last
    rw [Mst.run, happly]
    exact ⟨hrun, hlast⟩

/-- Looking up a key succeeds within the limits. -/
theorem Mst.Represents.get_eq {P : Key → Prop} {mst : Mst ctx} (h : mst.Represents U P xs)
    (hctx : ctx.Sound) (hU : Short U) (hfit : AllFit ctx ctx.maxDepth U)
    (hheight : topLayer ctx xs ≤ ctx.maxDepth) {key : Key} (hP : P key) :
  mst.get key = .ok (lookup key xs)
  := by
  have hspec := h.get_spec hctx hU hP
  cases hget : mst.get key with
  | ok found =>
    rw [hget] at hspec
    rw [hspec]
  | error e =>
    rw [hget] at hspec
    obtain hlt | hnot := hspec
    · exact absurd hheight (Nat.not_le.mpr hlt)
    · exact absurd (hfit.anti hheight) hnot

/-- The covering proofs of the keys of a batch are enough to read these keys and to undo
the batch in any order. -/
theorem Mst.Represents.undo_batch {mst mst' : Mst ctx} {steps : Nat}
    (h : mst.Represents U (fun _ => True) xs) (hctx : ctx.Sound) (hU : Short U)
    (hfit : AllFit ctx ctx.maxDepth U) (hheight : ∀ x, U x → keyHeight ctx.sha256 x.1 ≤ ctx.maxDepth)
    (hvalid : ∀ x ∈ xs, validateKey x.1 = .ok ()) (hops : (ops.map Operation.target).Nodup)
    (hinserts : ∀ op ∈ ops, op.Inserts U) (hrun : mst.run ops = .ok mst')
    (hsteps : topLayer ctx (editAll ops xs) < steps) :
  ∃ blocks, mst'.coveringProofs steps (ops.map Operation.target) = .ok blocks ∧
    (∀ op ∈ ops, (mst'.withBlocks blocks).get op.target = .ok op.value? ∧
      mst'.get op.target = .ok op.value?) ∧
    ∀ undos : List Operation, undos.Perm (ops.map fun op => op.undo fun k => lookup k xs) →
      ∃ last, (mst'.withBlocks blocks).run undos = .ok last ∧ last.root = mst.root
  := by
  obtain ⟨h', -⟩ := h.run_ok hctx hU (fun op hop => ⟨hinserts op hop, trivial⟩) hrun
  have htop := topLayer_le h'.within hheight
  obtain ⟨blocks, hblocks, hproved⟩ := h'.exists_withBlocks hctx hU (hfit.anti htop) hsteps
    (fun _ _ => trivial : ∀ key ∈ ops.map Operation.target, True)
  refine ⟨blocks, hblocks, ?_, ?_⟩
  · intro op hop
    have hmem : op.target ∈ ops.map Operation.target := List.mem_map_of_mem hop
    rw [hproved.get_eq hctx hU hfit htop hmem, h'.get_eq hctx hU hfit htop trivial,
      lookup_editAll_of_mem xs hops hop]
    exact ⟨rfl, rfl⟩
  · intro undos hundos
    have hundo : ∀ undo ∈ undos,
        undo.Inserts U ∧ undo.target ∈ ops.map Operation.target ∧ undo.Valid := by
      intro undo hmem
      obtain ⟨op, hop, rfl⟩ := List.mem_map.mp (hundos.mem_iff.mp hmem)
      rw [Operation.undo_target]
      have htarget : op.target ∈ ops.map Operation.target := List.mem_map_of_mem hop
      rw [Operation.undo]
      cases hprev : lookup op.target xs with
      | some value =>
        have hx := mem_of_lookup hprev
        exact ⟨h.within.mem _ hx, htarget, hvalid _ hx⟩
      | none => exact ⟨trivial, htarget, trivial⟩
    obtain ⟨last, hlast, hrepr⟩ := hproved.exists_run hctx hU hfit hheight hundo
    use last, hlast
    rw [hrepr.root, h.root, editAll_undo h.within.sorted hops hundos]

end Atproto.Repo
